/-!
JSON documents. A number keeps its spelling. A string is a row of characters and of halves: an
escape may name half of a surrogate pair, and on its own that is no character.
-/

namespace LetModules

/-- One place of a string. -/
inductive Json.Piece where
  | char (c : Char)
  /-- Half of a surrogate pair, without its other half. -/
  | half (code : Nat)
  deriving DecidableEq, Repr

/-- What stands between the quotes of a string. -/
abbrev Json.Literal := List Json.Piece

/-- A document. The members of an object keep their order, and a key may come again. -/
inductive Json where
  | null
  | bool (value : Bool)
  | number (spelling : String)
  | string (content : Json.Literal)
  | array (items : List Json)
  | object (members : List (Json.Literal × Json))
  deriving Repr

namespace Json

/-- A text as the content of a string. -/
def literal (text : String) : Literal := text.toList.map .char

/-- The characters of a string, if it has nothing else in it. -/
def characters? : Literal → Option (List Char)
  | [] => some []
  | .char c :: rest => (characters? rest).map (c :: ·)
  | .half _ :: _ => none

/-- The text of a string. A half has none. -/
def Literal.text? (content : Literal) : Option String :=
  (characters? content).map String.ofList

/-- A text as a document. -/
def ofString (text : String) : Json := .string (literal text)

/-- A count as a document. -/
def ofNat (n : Nat) : Json := .number (toString n)

/-- Texts in order as a document. -/
def ofStrings (texts : List String) : Json := .array (texts.map ofString)

/-- Something that may be absent, which is then written as `null`. -/
def ofOption (write : α → Json) : Option α → Json
  | some value => write value
  | none => .null

/-- Named fields in order as a document. -/
def record (fields : List (String × Json)) : Json :=
  .object (fields.map fun (name, value) => (literal name, value))

/-- The text of a document that is a string. -/
def asString? : Json → Option String
  | .string content => content.text?
  | _ => none

/-- The truth value of a document that is one. -/
def asBool? : Json → Option Bool
  | .bool value => some value
  | _ => none

/-- The texts of a document that is an array of strings. -/
def asStrings? : Json → Option (List String)
  | .array items => items.mapM asString?
  | _ => none

/-- The value of a field among the members of an object: nothing when the field is absent, and a
failure when it comes twice. -/
def memberOnce? (members : List (Literal × Json)) (name : String) : Option (Option Json) :=
  match members.filter fun member => member.1 = literal name with
  | [] => some none
  | [(_, value)] => some (some value)
  | _ => none

/-- The values of the named fields. A record is written as an object, where other members say
nothing, or as the array of its first fields in order. Every key of the object must be a text. -/
def fields? (names : List String) : Json → Option (List (Option Json))
  | .object members =>
    if members.all fun member => member.1.text?.isSome then names.mapM (memberOnce? members)
    else none
  | .array items =>
    if items.length ≤ names.length then
      some (items.map some ++ List.replicate (names.length - items.length) none)
    else none
  | _ => none

end Json

end LetModules
