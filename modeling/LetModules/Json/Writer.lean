import LetModules.Json

/-!
Writing JSON documents, on one line without blanks or with a line for each item and member.
-/

namespace LetModules.Json

/-- The layout of a written document. -/
structure Style where
  /-- What comes before an item at a depth, and before the closing bracket. -/
  line : Nat → String
  /-- What stands between a key and its value. -/
  colon : String

/-- Everything on one line. -/
def Style.compact : Style := ⟨fun _ => "", ":"⟩

/-- A line for each item, indented by two columns for each level. -/
def Style.pretty : Style := ⟨fun depth => "\n" ++ "".pushn ' ' (2 * depth), ": "⟩

/-- Four lower-case hexadecimal digits. -/
def fourDigits (code : Nat) : String :=
  let digits := Nat.toDigits 16 code
  String.ofList (List.replicate (4 - digits.length) '0' ++ digits)

/-- A character inside a string. Only quotes, backslashes and control characters are escaped. -/
def escaped (c : Char) : String :=
  match c with
  | '"' => "\\\""
  | '\\' => "\\\\"
  | '\x08' => "\\b"
  | '\x0c' => "\\f"
  | '\n' => "\\n"
  | '\r' => "\\r"
  | '\t' => "\\t"
  | c => if c < ' ' then "\\u" ++ fourDigits c.toNat else c.toString

def Piece.written : Piece → String
  | .char c => escaped c
  | .half code => "\\u" ++ fourDigits code

/-- A string with its quotes. -/
def Literal.written (content : Literal) : String :=
  "\"" ++ String.join (content.map Piece.written) ++ "\""

mutual

/-- A document whose brackets stand at `depth`. -/
def writeAt (style : Style) (depth : Nat) : Json → String
  | .null => "null"
  | .bool true => "true"
  | .bool false => "false"
  | .number spelling => spelling
  | .string content => content.written
  | .array [] => "[]"
  | .array items => "[" ++ writeItems style (depth + 1) items ++ style.line depth ++ "]"
  | .object [] => "\x7b\x7d"
  | .object members =>
    "\x7b" ++ writeMembers style (depth + 1) members ++ style.line depth ++ "\x7d"

/-- Items with commas between them. -/
def writeItems (style : Style) (depth : Nat) : List Json → String
  | [] => ""
  | [item] => style.line depth ++ writeAt style depth item
  | item :: items =>
    style.line depth ++ writeAt style depth item ++ "," ++ writeItems style depth items

/-- Members with commas between them. -/
def writeMembers (style : Style) (depth : Nat) : List (Literal × Json) → String
  | [] => ""
  | [member] => style.line depth ++ writeMember style depth member
  | member :: members =>
    style.line depth ++ writeMember style depth member ++ "," ++ writeMembers style depth members

/-- A key and its value. -/
def writeMember (style : Style) (depth : Nat) : Literal × Json → String
  | (key, value) => key.written ++ style.colon ++ writeAt style depth value

end

/-- The text of a document. -/
def write (style : Style) (document : Json) : String := writeAt style 0 document

end LetModules.Json
