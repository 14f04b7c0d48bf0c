import LetModules.Diagnostic
import LetModules.Text.Blank

/-!
Printing diagnostics with the source lines they point to.

A diagnostic is printed as a header, one snippet per file that it labels, and its notes. A snippet
shows each line that a label begins or ends on. Under a line stand the marks of the labels that lie
within it; a label over several lines is drawn in a gutter to the left of the text, where it has a
slot of two columns to itself.
-/

namespace LetModules.Diagnostic.Snippet

open Text (byteLength)

/-! ### Lines and columns -/

/-- A line of a source text, with its line feed, and the byte at which it starts. -/
structure Line where
  start : Nat
  chars : List Char

/-- The lines of a text that begins at byte `start`. After a final line feed comes an empty line. -/
def linesFrom : Nat → List Char → List Line
  | start, [] => [⟨start, []⟩]
  | start, c :: cs =>
    if c = '\n' then ⟨start, [c]⟩ :: linesFrom (start + 1) cs
    else
      match linesFrom (start + c.utf8Size) cs with
      | [] => [⟨start, [c]⟩]
      | line :: lines => ⟨start, c :: line.chars⟩ :: lines

/-- The lines of a text. -/
def linesOf (text : String) : List Line := linesFrom 0 text.toList

/-- The number, from zero, of the line that holds the byte at `offset`. -/
def lineAt (lines : List Line) (offset : Nat) : Nat :=
  (lines.filter (·.start ≤ offset)).length - 1

/-- A character of a line: the byte within the line at which it starts and the columns it takes. -/
structure Column where
  offset : Nat
  char : Char
  width : Nat

/-- The columns that a character takes when `column` are taken before it. Tabs reach to the next
multiple of four, and control characters take none. -/
def widthAt (column : Nat) (c : Char) : Nat :=
  if c = '\t' then 4 - column % 4
  else if c.toNat < 0x20 || (0x7F ≤ c.toNat && c.toNat < 0xA0) then 0
  else 1

/-- The characters of a line from byte `offset` and column `column` on. -/
def columnsFrom (offset column : Nat) : List Char → List Column
  | [] => []
  | c :: cs =>
    let width := widthAt column c
    ⟨offset, c, width⟩ :: columnsFrom (offset + c.utf8Size) (column + width) cs

/-- Characters that are not shown at the end of a line. -/
def isLineEnd (c : Char) : Bool := c = '\n' || c = '\r' || c = '\x00'

/-- The characters of a line that are shown. -/
def shownChars (line : Line) : List Char := (line.chars.reverse.dropWhile isLineEnd).reverse

/-- `n` times the same text. -/
def times (n : Nat) (s : String) : String := String.join (List.replicate n s)

/-! ### Labels on lines -/

/-- A label within one line, by bytes of the line. -/
structure Mark where
  style : LabelStyle
  start : Nat
  stop : Nat
  message : String
  deriving DecidableEq

/-- What a label over several lines does on one of them. -/
inductive Edge where
  /-- It begins at this byte of the line. -/
  | top (start : Nat)
  /-- It goes past the line. -/
  | side
  /-- It ends at this byte of the line. -/
  | bottom (stop : Nat) (message : String)

/-- An edge, with the slot and the style of its label. -/
structure Slotted where
  slot : Nat
  style : LabelStyle
  edge : Edge

/-- A label, with the numbers of the lines it begins and ends on. -/
structure Placed where
  label : Label
  first : Nat
  last : Nat

/-- A label and the lines it begins and ends on. -/
def place (lines : List Line) (label : Label) : Placed :=
  ⟨label, lineAt lines label.span.start, lineAt lines label.span.stop⟩

namespace Placed

/-- The label lies within one line. -/
def isSingle (placed : Placed) : Bool := placed.first = placed.last

/-- The byte at which a line starts. -/
def startOf (lines : List Line) (index : Nat) : Nat := ((lines[index]?).map (·.start)).getD 0

/-- A label within one line as a mark, which covers at least one byte. -/
def mark (lines : List Line) (placed : Placed) : Mark :=
  let base := startOf lines placed.first
  let start := placed.label.span.start - base
  ⟨placed.label.style, start, max (placed.label.span.stop - base) (start + 1), placed.label.message⟩

/-- What a label over several lines does on the line `index`. -/
def edgeAt (lines : List Line) (index : Nat) (placed : Placed) : Option Edge :=
  if index = placed.first then
    some (.top (placed.label.span.start - startOf lines placed.first))
  else if index = placed.last then
    some (.bottom (placed.label.span.stop - startOf lines placed.last) placed.label.message)
  else if placed.first < index && index < placed.last then some .side
  else none

/-- The label asks for the line to be shown: it begins or ends there, or begins at most three lines
before, or ends on the next one. -/
def shows (index : Nat) (placed : Placed) : Bool :=
  placed.first ≤ index && index ≤ placed.last &&
    (index - placed.first ≤ 3 || placed.last - index ≤ 1)

end Placed

/-- Puts a mark into a row that is sorted by place. Among marks of one place it comes just before
the last. -/
def insertMark (mark : Mark) : List Mark → List Mark
  | [] => [mark]
  | m :: ms =>
    if m.start = mark.start && m.stop = mark.stop then
      if ms.any fun n => n.start = mark.start && n.stop = mark.stop then m :: insertMark mark ms
      else mark :: m :: ms
    else if m.start < mark.start || (m.start = mark.start && m.stop < mark.stop) then
      m :: insertMark mark ms
    else mark :: m :: ms

/-- The marks of the line `index`. -/
def marksAt (lines : List Line) (placed : List Placed) (index : Nat) : List Mark :=
  (placed.filter fun p => p.isSingle && p.first = index).foldl
    (fun marks p => insertMark (p.mark lines) marks) []

/-- The edges of the line `index`, by slot. -/
def edgesAt (lines : List Line) (placed : List Placed) (index : Nat) : List Slotted :=
  ((placed.filter (!·.isSingle)).zipIdx).filterMap fun (p, slot) =>
    (p.edgeAt lines index).map fun edge => ⟨slot, p.label.style, edge⟩

/-! ### The gutter -/

/-- A slot that is crossed by the line of a label further left. -/
def emptySlot (crossed : Bool) : String := if crossed then "──" else "  "

/-- A slot through which its label passes. -/
def passedSlot (crossed : Bool) : String := if crossed then "─│" else " │"

/-- The gutter beside a line, slot by slot. -/
def gutterBy (slots : Nat) (edges : List Slotted) (draw : Slotted → String) : String :=
  String.join ((List.range slots).map fun slot =>
    match edges.find? (·.slot = slot) with
    | some edge => draw edge
    | none => emptySlot false)

/-- The gutter beside a row under a source line. -/
def innerGutter (slots : Nat) (edges : List Slotted) : String :=
  gutterBy slots edges fun edge =>
    match edge.edge with
    | .top _ => emptySlot false
    | .side | .bottom _ _ => passedSlot false

/-- The gutter beside a source line, whose blank space at the left is `indent` bytes long. A label
that begins within it begins in the gutter. -/
def sourceGutter (slots indent : Nat) (edges : List Slotted) : String :=
  gutterBy slots edges fun edge =>
    match edge.edge with
    | .top start => if start ≤ indent then " ╭" else emptySlot false
    | .side | .bottom _ _ => passedSlot false

/-- The gutter beside the row on which the label in slot `own` begins or ends. To the right of that
slot it is crossed by the label's line. Labels further left have begun but not yet ended on rows
above, those further right have not begun but may still pass. -/
def turningGutter (slots own : Nat) (corner : String) (edges : List Slotted) : String :=
  String.join ((List.range slots).map fun slot =>
    let crossed := decide (own < slot)
    if slot = own then corner
    else
      match edges.find? (·.slot = slot) with
      | none => emptySlot crossed
      | some edge =>
        match edge.edge with
        | .side => passedSlot crossed
        | .top _ => if slot < own then passedSlot crossed else emptySlot crossed
        | .bottom _ _ => if own < slot then passedSlot crossed else emptySlot crossed)

/-! ### Rows -/

/-- The space before the border of a row without a line number. -/
def margin (pad : Nat) : String := times pad " " ++ " "

/-- The number of a line, right-aligned. -/
def numbered (pad number : Nat) : String :=
  let digits := toString number
  times (pad - digits.length) " " ++ digits ++ " "

/-- The row of a source line. -/
def sourceRow (pad slots number : Nat) (columns : List Column) (indent : Nat)
    (edges : List Slotted) : String :=
  let shown := columns.map fun c => if c.char = '\t' then times c.width " " else c.char.toString
  numbered pad number ++ "│" ++ sourceGutter slots indent edges ++ " " ++ String.join shown

/-- A mark covers some of the bytes from `start` up to `stop`. -/
def Mark.meets (mark : Mark) (start stop : Nat) : Bool :=
  max mark.start start < min mark.stop stop

/-- The caret of a style. -/
def caret : LabelStyle → String
  | .primary => "^"
  | .secondary => "-"

/-- The style that shows where marks overlap, if any mark is there. -/
def strongest : List Mark → Option LabelStyle
  | [] => none
  | marks => some (if marks.any (·.style = .primary) then .primary else .secondary)

/-- The mark whose message can stand behind the carets: it ends last, it has a message, and it
overlaps no other. Of marks that end at one byte the last counts. Answers its place in the row. -/
def trailing (marks : List Mark) : Option (Nat × Mark) :=
  let stop := (marks.map (·.stop)).foldl max 0
  match (marks.zipIdx.filter fun (m, _) => m.stop = stop).getLast? with
  | none => none
  | some (mark, index) =>
    if mark.message = "" then none
    else if marks.zipIdx.any fun (m, i) => i ≠ index && mark.meets m.start m.stop then none
    else some (index, mark)

/-- The marks whose messages hang below the carets. -/
def hanging (marks : List Mark) : List Mark :=
  let index? := (trailing marks).map (·.1)
  (marks.zipIdx.filter fun (m, i) => m.message ≠ "" && index? ≠ some i).map (·.1)

/-- The carets under a line, with the trailing message. One column behind the line can be marked
too. -/
def caretRow (columns : List Column) (length : Nat) (marks : List Mark) : String :=
  let stop := (marks.map (·.stop)).foldl max 0
  let behind : Column := ⟨length, ' ', 1⟩
  let carets := (columns ++ [behind]).map fun c =>
    match strongest (marks.filter (·.meets c.offset (c.offset + c.char.utf8Size))) with
    | some style => times c.width (caret style)
    | none => if c.offset < stop then times c.width " " else ""
  let message := ((trailing marks).map fun (_, mark) => " " ++ mark.message).getD ""
  String.join carets ++ message

/-- Pointers from the carets to messages below, over the given columns. -/
def pointers (columns : List Column) (marks : List Mark) : String :=
  let start := (marks.map (·.start)).foldl max 0
  let hung := hanging marks
  String.join (columns.map fun c =>
    let pointed := hung.any fun m => c.offset ≤ m.start && m.start < c.offset + c.char.utf8Size
    let space := if pointed then c.width - 1 else c.width
    (if pointed then "│" else "") ++ (if c.offset ≤ start then times space " " else ""))

/-- The rows below the carets: all pointers, then the messages from the right-most mark on. -/
def hangingRows (columns : List Column) (marks : List Mark) : List String :=
  match hanging marks with
  | [] => []
  | hung =>
    pointers columns marks :: hung.reverse.map fun m =>
      pointers (columns.takeWhile (·.offset < m.start)) marks ++ m.message

/-- The mark that ends the line of a label over several lines. -/
def turningCaret : LabelStyle → String
  | .primary => "^"
  | .secondary => "'"

/-- The rows on which labels over several lines begin or end. One that begins in the blank space at
the left of the line has begun beside the line itself. -/
def turningRows (slots : Nat) (columns : List Column) (indent : Nat) (edges : List Slotted) :
    List String :=
  edges.filterMap fun own =>
    match own.edge with
    | .side => none
    | .top start =>
      if start ≤ indent then none
      else
        let reach := (columns.takeWhile (·.offset < start + 1)).map fun c => times c.width "─"
        some (turningGutter slots own.slot " ╭" edges ++ String.join reach ++
          turningCaret own.style)
    | .bottom stop message =>
      let reach := (columns.takeWhile (·.offset < stop)).map fun c => times c.width "─"
      let tail := if message = "" then "" else " " ++ message
      some (turningGutter slots own.slot " ╰" edges ++ String.join reach ++
        turningCaret own.style ++ tail)

/-- A source line and all rows under it. -/
def lineRows (pad slots number : Nat) (line : Line) (marks : List Mark) (edges : List Slotted) :
    List String :=
  let chars := shownChars line
  let columns := columnsFrom 0 0 chars
  let indent := byteLength (chars.takeWhile Text.isBlank)
  let under (row : String) := margin pad ++ "│" ++ row
  let beside (row : String) := under (innerGutter slots edges ++ " " ++ row)
  let single :=
    if marks.isEmpty then []
    else beside (caretRow columns (byteLength chars) marks) ::
      (hangingRows columns marks).map beside
  sourceRow pad slots number columns indent edges :: single ++
    (turningRows slots columns indent edges).map under

/-! ### Snippets -/

/-- The labels of one file, in order, and the lines of the file. -/
structure FileLabels where
  file : SourceFile
  lines : List Line
  placed : List Placed

/-- The files that labels point into, by first appearance, with the labels of each. -/
def byFile (sources : Sources) (labels : List Label) : List FileLabels :=
  (labels.map (·.file)).eraseDups.filterMap fun id =>
    (sources.file? id).map fun file =>
      let lines := linesOf file.text
      ⟨file, lines, (labels.filter (·.file = id)).map (place lines)⟩

/-- Primary labels come before secondary ones, and earlier ones before later ones. -/
def Placed.before (a b : Placed) : Bool :=
  match a.label.style, b.label.style with
  | .primary, .secondary => true
  | .secondary, .primary => false
  | _, _ => a.label.span.start < b.label.span.start

namespace FileLabels

/-- The label that the heading of the snippet names. -/
def foremost (labels : FileLabels) : Option Placed :=
  labels.placed.foldl
    (fun best p =>
      match best with
      | none => some p
      | some b => if p.before b then some p else some b)
    none

/-- The number of slots in the gutter. -/
def slots (labels : FileLabels) : Nat := (labels.placed.filter (!·.isSingle)).length

/-- The numbers, from zero, of the lines that labels ask for. -/
def shown (labels : FileLabels) : List Nat :=
  (List.range labels.lines.length).filter fun index => labels.placed.any (·.shows index)

/-- The heading of the snippet. -/
def heading (pad : Nat) (labels : FileLabels) : List String :=
  match labels.foremost with
  | none => []
  | some p =>
    let place := Text.locate labels.file.text p.label.span.start
    [margin pad ++ s!"┌─ {labels.file.name}:{place.line + 1}:{place.column + 1}"]

/-- The border of a row without anything else. -/
def border (pad : Nat) (labels : FileLabels) : String :=
  margin pad ++ "│" ++ innerGutter labels.slots []

/-- The rows of the line `index`. -/
def rowsAt (pad : Nat) (labels : FileLabels) (index : Nat) (marks : List Mark) : List String :=
  match labels.lines[index]? with
  | none => []
  | some line =>
    lineRows pad labels.slots (index + 1) line marks (edgesAt labels.lines labels.placed index)

/-- What stands between two lines that are shown one after the other: nothing, the one line that
lies between them, or a break. -/
def between (pad : Nat) (labels : FileLabels) (index next : Nat) : List String :=
  if next = index + 1 then []
  else if next = index + 2 then rowsAt pad labels (index + 1) []
  else
    [margin pad ++ "·" ++
      innerGutter labels.slots (edgesAt labels.lines labels.placed index)]

/-- The rows of the lines that are shown. -/
def body (pad : Nat) (labels : FileLabels) : List Nat → List String
  | [] => []
  | index :: rest =>
    let rows := labels.rowsAt pad index (marksAt labels.lines labels.placed index)
    let gap := match rest with
      | [] => []
      | next :: _ => labels.between pad index next
    rows ++ gap ++ body pad labels rest

/-- The snippet of one file. -/
def snippet (pad : Nat) (labels : FileLabels) : List String :=
  labels.heading pad ++ [labels.border pad] ++ labels.body pad labels.shown

end FileLabels

/-- The digits of the largest line number that a label touches; none without labels. -/
def padOf (files : List FileLabels) : Nat :=
  (files.flatMap fun labels =>
    labels.placed.map fun p => (toString (p.last + 1)).length).foldl max 0

/-- The snippets of all files. A border closes one if another or a note follows. -/
def snippets (pad : Nat) (notes : Bool) : List FileLabels → List String
  | [] => []
  | labels :: rest =>
    let closing := if rest.isEmpty && !notes then [] else [labels.border pad]
    labels.snippet pad ++ closing ++ snippets pad notes rest

/-- The lines of a note, without a carriage return before their line feed. -/
def noteLines (note : String) : List String :=
  let lines := (linesOf note).map fun line =>
    match line.chars.reverse with
    | '\n' :: '\r' :: rest => (rest.reverse, true)
    | '\n' :: rest => (rest.reverse, true)
    | rest => (rest.reverse, false)
  (lines.filter fun (chars, ended) => ended || !chars.isEmpty).map fun (chars, _) =>
    String.ofList chars

/-- The rows of a note. -/
def noteRows (pad : Nat) (note : String) : List String :=
  (noteLines note).zipIdx.map fun (line, i) =>
    margin pad ++ (if i = 0 then "= " else "  ") ++ line

/-- The severity, the code if there is one, and the message. -/
def header (diagnostic : Diagnostic) : String :=
  let code := match diagnostic.code with
    | none | some "" => ""
    | some code => s!"[{code}]"
  diagnostic.severity.word ++ code ++ ": " ++ diagnostic.message

/-- The rows of a diagnostic, with the blank one that ends it. -/
def rows (sources : Sources) (diagnostic : Diagnostic) : List String :=
  let files := byFile sources diagnostic.labels
  let pad := padOf files
  header diagnostic :: snippets pad (!diagnostic.notes.isEmpty) files ++
    diagnostic.notes.flatMap (noteRows pad) ++ [""]

end LetModules.Diagnostic.Snippet

namespace LetModules.Diagnostic

/-- A diagnostic as text, with the source lines that its labels point to. -/
def render (sources : Sources) (diagnostic : Diagnostic) : String :=
  String.join ((Snippet.rows sources diagnostic).map (· ++ "\n"))

/-- Diagnostics as text, one after the other. -/
def renderAll (sources : Sources) (diagnostics : List Diagnostic) : String :=
  String.join (diagnostics.map (render sources))

end LetModules.Diagnostic
