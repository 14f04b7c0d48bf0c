import LetModules.Json.Token

/-!
Reading a JSON document: a machine goes over the tokens once and keeps the open containers in a
list. There is no limit on their depth.
-/

namespace LetModules.Json

/-- A container whose closing bracket is still to come, with what it holds so far, latest first. -/
inductive Frame where
  | array (items : List Json)
  /-- The value of `key` is being read. -/
  | object (members : List (Literal × Json)) (key : Literal)
  deriving Repr

/-- What may come next. Open containers stand innermost first. -/
inductive State where
  /-- A value. -/
  | value (frames : List Frame)
  /-- The first item of an array, or its end. -/
  | item (frames : List Frame)
  /-- The first key of an object, or its end. -/
  | member (frames : List Frame)
  /-- A further key. -/
  | key (members : List (Literal × Json)) (frames : List Frame)
  /-- The colon after a key. -/
  | colon (members : List (Literal × Json)) (key : Literal) (frames : List Frame)
  /-- A value has been read: its container goes on or ends. -/
  | after (value : Json) (frames : List Frame)
  deriving Repr

namespace State

/-- Starts a value. -/
def start (frames : List Frame) : Token → Option State
  | .null => some (.after .null frames)
  | .bool b => some (.after (.bool b) frames)
  | .number spelling => some (.after (.number spelling) frames)
  | .string content => some (.after (.string content) frames)
  | .openArray => some (.item frames)
  | .openObject => some (.member frames)
  | _ => none

/-- Reads one token. -/
def step : State → Token → Option State
  | .value frames, token => start frames token
  | .item frames, .closeArray => some (.after (.array []) frames)
  | .item frames, token => start (.array [] :: frames) token
  | .member frames, .closeObject => some (.after (.object []) frames)
  | .member frames, .string name => some (.colon [] name frames)
  | .key members frames, .string name => some (.colon members name frames)
  | .colon members name frames, .colon => some (.value (.object members name :: frames))
  | .after v (.array items :: frames), .comma => some (.value (.array (v :: items) :: frames))
  | .after v (.array items :: frames), .closeArray =>
    some (.after (.array (v :: items).reverse) frames)
  | .after v (.object members name :: frames), .comma =>
    some (.key ((name, v) :: members) frames)
  | .after v (.object members name :: frames), .closeObject =>
    some (.after (.object ((name, v) :: members).reverse) frames)
  | _, _ => none

/-- The document that has been read when the text may end here. -/
def document? : State → Option Json
  | .after v [] => some v
  | _ => none

end State

/-- The document that a text is. -/
def read? (text : String) : Option Json := do
  let tokens ← tokens? text.toList
  let state ← tokens.foldlM State.step (.value [])
  state.document?

end LetModules.Json
