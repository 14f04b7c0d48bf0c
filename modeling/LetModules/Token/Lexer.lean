import LetModules.Token

/-!
Cutting a source text into tokens. A text is a row of pieces, each a token, a run of blank space or
a comment, and each as long as it can be; `piece` takes the first one and `scan` takes them all.

Since a piece holds at least the first character, `piece` is given that character apart from the
rest and answers how much of the rest belongs to it.
-/

namespace LetModules.Token.Lexer

/-- Space, tab, line feed, carriage return and form feed; no other character separates tokens. -/
def isSpace (c : Char) : Bool :=
  c = ' ' || c = '\t' || c = '\n' || c = '\r' || c = '\x0c'

/-- A character that an identifier may begin with. -/
def startsWord (c : Char) : Bool := c.isAlpha || c = '_'

/-- A character that an identifier may go on with. -/
def continuesWord (c : Char) : Bool := c.isAlphanum || c = '_'

/-- The rest of an identifier, with the identifiers that dots join to it. -/
def wordRest : List Char → List Char
  | [] => []
  | '.' :: c :: cs => if startsWord c then '.' :: c :: wordRest cs else []
  | c :: cs => if continuesWord c then c :: wordRest cs else []

/-- The digits of a number after the first, with a fraction if digits follow its point. -/
def numberRest (cs : List Char) : List Char :=
  let whole := cs.takeWhile Char.isDigit
  match cs.dropWhile Char.isDigit with
  | '.' :: d :: ds => if d.isDigit then whole ++ '.' :: d :: ds.takeWhile Char.isDigit else whole
  | _ => whole

/-- The inside of a string literal, as far as it goes, and whether a quote closes it. A backslash
takes the next character with it, but neither a line feed nor the end of the text. -/
def stringBody : List Char → List Char × Bool
  | [] => ([], false)
  | '"' :: _ => ([], true)
  | '\\' :: cs =>
    match cs with
    | [] => ([], false)
    | c :: rest =>
      if c = '\n' then ([], false)
      else
        let (body, closed) := stringBody rest
        ('\\' :: c :: body, closed)
  | c :: cs =>
    let (body, closed) := stringBody cs
    (c :: body, closed)

/-- The inside of a block comment with the mark that ends it, and whether there is one. -/
def commentBody : List Char → List Char × Bool
  | [] => ([], false)
  | '*' :: '/' :: _ => (['*', '/'], true)
  | c :: cs =>
    let (body, closed) := commentBody cs
    (c :: body, closed)

/-- An identifier is dotted if it holds a dot. A reserved word before a stray dot is an ordinary
identifier. -/
def wordToken (word rest : List Char) : Token :=
  if word.contains '.' then .dotted (String.ofList word)
  else
    match Keyword.ofSpelling? (String.ofList word) with
    | some reserved =>
      if rest.head? = some '.' then .ident (String.ofList word) else .keyword reserved
    | none => .ident (String.ofList word)

/-- The punctuation that one character makes. -/
def punct? : Char → Option Punct
  | ':' => some .colon
  | '=' => some .equals
  | '(' => some .leftParen
  | ')' => some .rightParen
  | '{' => some .leftBrace
  | '}' => some .rightBrace
  | '[' => some .leftBracket
  | ']' => some .rightBracket
  | ',' => some .comma
  | ';' => some .semicolon
  | _ => none

/-- The first piece of `c :: cs`: the characters of `cs` that belong to it and the token it is, or
none if it is blank space or a comment. -/
def piece (c : Char) (cs : List Char) : List Char × Option Token :=
  if isSpace c then (cs.takeWhile isSpace, none)
  else if startsWord c then
    let more := wordRest cs
    (more, some (wordToken (c :: more) (cs.drop more.length)))
  else if c.isDigit then
    let more := numberRest cs
    (more, some (.number (String.ofList (c :: more))))
  else if c = '"' then
    match stringBody cs with
    | (body, true) => (body ++ ['"'], some (.text (String.ofList body)))
    | (body, false) => (body, some (.unknown (String.ofList (c :: body))))
  else if c = '/' && cs.head? = some '/' then (cs.takeWhile (· ≠ '\n'), none)
  else if c = '/' && cs.head? = some '*' then
    match commentBody cs.tail with
    | (body, true) => ('*' :: body, none)
    | (body, false) => ('*' :: body, some (.unknown (String.ofList (c :: '*' :: body))))
  else if c = ':' && cs.head? = some ':' then ([':'], some (.punct .pathSep))
  else
    match punct? c with
    | some mark => ([], some (.punct mark))
    | none => ([], some (.unknown (String.ofList [c])))

/-- The tokens of a text that begins at byte `start`. -/
def scan : List Char → Nat → List Lexeme
  | [], _ => []
  | c :: cs, start =>
    let (more, token?) := piece c cs
    let span := Span.ofLength start (Text.byteLength (c :: more))
    let rest := scan (cs.drop more.length) span.stop
    match token? with
    | some token => ⟨token, span⟩ :: rest
    | none => rest
termination_by cs => cs.length

end LetModules.Token.Lexer

namespace LetModules

/-- The tokens of a source text, in order. -/
def lex (source : String) : List Lexeme := Token.Lexer.scan source.toList 0

end LetModules
