import LetModules.Text.Span

/-!
Registered source files. A file is known by its place in the list, so two files may have one name.
Lines end at a line feed only, and columns count characters.
-/

namespace LetModules

/-- The place of a source file in the order of registration. -/
structure FileId where
  index : Nat
  deriving DecidableEq, Repr

/-- A source file: the name it is reported under and its text. -/
structure SourceFile where
  name : String
  text : String
  deriving DecidableEq, Repr

/-- All registered files, each at the place that its id names. -/
abbrev Sources := List SourceFile

namespace Sources

/-- The file behind an id. -/
def file? (sources : Sources) (id : FileId) : Option SourceFile := sources[id.index]?

/-- The name of a file, empty for an id that was never handed out. -/
def nameOf (sources : Sources) (id : FileId) : String :=
  ((sources.file? id).map (·.name)).getD ""

/-- The id that the next registered file gets. -/
def nextId (sources : Sources) : FileId := ⟨sources.length⟩

end Sources

namespace Text

/-- The characters that lie wholly within the first `n` bytes. -/
def takeBytes : Nat → List Char → List Char
  | _, [] => []
  | n, c :: cs => if c.utf8Size ≤ n then c :: takeBytes (n - c.utf8Size) cs else []

/-- A place in a text, both counts from zero. -/
structure Location where
  line : Nat
  column : Nat
  deriving DecidableEq, Repr

/-- The place that is reached after reading the characters from `location` on. -/
def Location.advance (location : Location) (c : Char) : Location :=
  if c = '\n' then ⟨location.line + 1, 0⟩ else ⟨location.line, location.column + 1⟩

/-- The line of the byte at `offset`, and how many characters of that line come before it. -/
def locate (text : String) (offset : Nat) : Location :=
  (takeBytes offset text.toList).foldl Location.advance ⟨0, 0⟩

end Text

end LetModules
