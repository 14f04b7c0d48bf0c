import LetModules.Text.Blank

/-!
Module paths are written as segments with `::` between them. `segments` cuts a text at each `::`
and keeps every piece; `trimmedSegments` is the lenient reading, in which blank space around a
segment and empty segments do not count; `joined` writes segments back. `inOrder` is the order in
which paths are listed.
-/

namespace LetModules.Text

/-- Cuts at each `::`, from the left; a third colon belongs to the piece that follows. -/
def cutAtColons : List Char → List (List Char)
  | [] => [[]]
  | ':' :: ':' :: rest => [] :: cutAtColons rest
  | c :: rest =>
    match cutAtColons rest with
    | [] => [[c]]
    | piece :: pieces => (c :: piece) :: pieces

/-- The pieces of a text between its `::`, empty ones included. -/
def segments (s : String) : List String := (cutAtColons s.toList).map String.ofList

/-- The pieces of a text between its `::`, each trimmed, without the empty ones. -/
def trimmedSegments (s : String) : List String :=
  ((segments s).map trim).filter (· ≠ "")

/-- Segments written with `::` between them. -/
def joined (segments : List String) : String := "::".intercalate segments

/-- The first path is listed no later than the second: they are compared segment by segment, and a
path comes before those that it begins. -/
def inOrder (a b : List String) : Bool := !b.lex a

end LetModules.Text
