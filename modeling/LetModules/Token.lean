import LetModules.Text.Span
import LetModules.Tier

/-!
The tokens of a source file. The reader of outlines knows the reserved words, the punctuation of
headers and brackets; every other operator is `unknown`, because it can only stand in a body.
-/

namespace LetModules

/-- The reserved words. -/
inductive Keyword where
  | importWord
  | fromWord
  | asWord
  | funWord
  | typeWord
  | privateWord
  | protectedWord
  | internalWord
  | publicWord
  | exportWord
  deriving DecidableEq, Repr

namespace Keyword

/-- Every reserved word. -/
def all : List Keyword :=
  [.importWord, .fromWord, .asWord, .funWord, .typeWord, .privateWord, .protectedWord,
   .internalWord, .publicWord, .exportWord]

/-- The word as it is written. -/
def spelling : Keyword → String
  | .importWord => "import"
  | .fromWord => "from"
  | .asWord => "as"
  | .funWord => "fun"
  | .typeWord => "type"
  | .privateWord => "private"
  | .protectedWord => "protected"
  | .internalWord => "internal"
  | .publicWord => "public"
  | .exportWord => "export"

/-- The reserved word that is written so. -/
def ofSpelling? (word : String) : Option Keyword := all.find? (·.spelling = word)

/-- The tier that the word gives to a declaration. -/
def tier? : Keyword → Option Tier
  | .privateWord => some .private
  | .protectedWord => some .protected
  | .internalWord => some .internal
  | .publicWord | .exportWord => some .public
  | _ => none

/-- A word that can begin a top-level form. -/
def startsItem : Keyword → Bool
  | .fromWord | .asWord => false
  | _ => true

end Keyword

/-- Punctuation and brackets. -/
inductive Punct where
  | pathSep
  | colon
  | equals
  | leftParen
  | rightParen
  | leftBrace
  | rightBrace
  | leftBracket
  | rightBracket
  | comma
  | semicolon
  deriving DecidableEq, Repr

namespace Punct

/-- The punctuation as it is written. -/
def spelling : Punct → String
  | .pathSep => "::"
  | .colon => ":"
  | .equals => "="
  | .leftParen => "("
  | .rightParen => ")"
  | .leftBrace => "\x7b"
  | .rightBrace => "\x7d"
  | .leftBracket => "["
  | .rightBracket => "]"
  | .comma => ","
  | .semicolon => ";"

/-- An opening bracket. -/
def opens : Punct → Bool
  | .leftParen | .leftBrace | .leftBracket => true
  | _ => false

/-- A closing bracket. -/
def closes : Punct → Bool
  | .rightParen | .rightBrace | .rightBracket => true
  | _ => false

end Punct

/-- A token of a source file. -/
inductive Token where
  | keyword (word : Keyword)
  | punct (mark : Punct)
  /-- A string literal, without its quotes. -/
  | text (body : String)
  | number (digits : String)
  /-- Identifiers joined by dots, such as a package name. -/
  | dotted (name : String)
  | ident (name : String)
  /-- Input that is no token: an operator of a body, or a literal or comment that never ends. -/
  | unknown (input : String)
  deriving DecidableEq, Repr

namespace Token

/-- A token that can begin a top-level form. -/
def startsItem : Token → Bool
  | .keyword word => word.startsItem
  | _ => false

/-- The tier that the token gives to a declaration. -/
def tier? : Token → Option Tier
  | .keyword word => word.tier?
  | _ => none

/-- A tier keyword. -/
def isTier (token : Token) : Bool := token.tier?.isSome

/-- An opening bracket. -/
def opens : Token → Bool
  | .punct mark => mark.opens
  | _ => false

/-- A closing bracket. -/
def closes : Token → Bool
  | .punct mark => mark.closes
  | _ => false

/-- The token in the words of a syntax error. -/
def describe : Token → String
  | .keyword word => s!"`{word.spelling}`"
  | .punct mark => s!"`{mark.spelling}`"
  | .text _ => "string literal"
  | .number digits => s!"number `{digits}`"
  | .dotted name | .ident name => s!"identifier `{name}`"
  | .unknown input => s!"`{input}`"

end Token

/-- A token and where it stands. -/
structure Lexeme where
  token : Token
  span : Span
  deriving DecidableEq, Repr

end LetModules
