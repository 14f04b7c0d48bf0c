import LetModules.Proofs.Outline.Places

/-!
Every place that an outline records, and every place that its problems are reported at, is a stretch
of the text that the outline was read from (`marks_of_mem_places`, `marks_of_mem_diagnostics`). The
tokens stand on stretches of the text, and these are closed under joining.
-/

namespace LetModules

/-- The span is a stretch of the text: it lies within it and cuts no character. -/
structure Text.Marks (text : String) (span : Span) : Prop where
  ordered : span.start ≤ span.stop
  inside : span.stop ≤ text.utf8ByteSize
  starts : IsBoundary text span.start
  stops : IsBoundary text span.stop

namespace Text.Marks

variable {text : String} {a b : Span}

theorem join (ha : Marks text a) (hb : Marks text b) : Marks text (a.join b) where
  ordered := (a.join b).start_le_stop
  inside := Nat.max_le.mpr ⟨ha.inside, hb.inside⟩
  starts := by
    rcases Nat.le_total a.start b.start with first | first
    · simpa only [Span.join, Nat.min_eq_left first] using ha.starts
    · simpa only [Span.join, Nat.min_eq_right first] using hb.starts
  stops := by
    rcases Nat.le_total a.stop b.stop with last | last
    · simpa only [Span.join, Nat.max_eq_right last] using hb.stops
    · simpa only [Span.join, Nat.max_eq_left last] using ha.stops

theorem finish (ha : Marks text a) : Marks text (.point a.stop) :=
  ⟨Nat.le_refl _, ha.inside, ha.stops, ha.stops⟩

theorem origin : Marks text (.point 0) := by
  have first : IsBoundary text 0 := isBoundary_of_eq (List.nil_append text.toList).symm
  exact ⟨Nat.le_refl 0, Nat.zero_le _, first, first⟩

end Text.Marks

/-- The places that a declaration records: its own and that of its source. -/
def DeclarationHeader.places (header : DeclarationHeader) : List Span :=
  header.span.toList ++ (header.source.bind (·.span)).toList

/-- The places that an import statement records: its own, that of its path and those of its
items. -/
def ImportStatement.places (statement : ImportStatement) : List Span :=
  statement.span.toList ++ statement.path.span.toList ++ statement.items.flatMap (·.span.toList)

namespace Outline

/-- The places that an outline records. -/
def places (outline : Outline) : List Span :=
  outline.declarations.flatMap (·.places) ++ outline.imports.flatMap (·.places)

/-- All places in the outline are stretches of the text. -/
abbrev Marked (text : String) (outline : Outline) : Prop :=
  outline.Related (fun span _ => Text.Marks text span) outline

theorem marked_read (text : String) : (read text).Marked text := by
  have tiled : Tiled [] text.toList (lex text) := Token.Lexer.tiled_scan text.toList []
  refine related_ofTokens ⟨.join, .finish, .origin⟩ (List.forall₂_same.mpr fun lexeme mem => ?_)
  have stands := tiled.standsIn rfl mem
  exact .same ⟨lexeme.span.start_le_stop, stands.inside, stands.boundaries.1, stands.boundaries.2⟩

theorem of_mem_toList {p : Span → Prop} {place? : Option Span}
    (h : Option.Rel (fun span _ => p span) place? place?) {span : Span}
    (mem : span ∈ place?.toList) : p span := by
  obtain rfl := Option.mem_toList.mp mem
  cases h
  assumption

variable {text : String} {span : Span}

theorem marks_of_mem_header {header : DeclarationHeader}
    (h : header.Related (fun span _ => Text.Marks text span) header) (mem : span ∈ header.places) :
    Text.Marks text span := by
  rcases List.mem_append.mp mem with mem | mem
  · exact of_mem_toList h.span mem
  · obtain ⟨path, source, place⟩ := Option.bind_eq_some_iff.mp (Option.mem_toList.mp mem)
    have same := h.source
    rw [source] at same
    cases same with
    | some same => exact of_mem_toList same.span (Option.mem_toList.mpr place)

theorem marks_of_mem_statement {statement : ImportStatement}
    (h : statement.Related (fun span _ => Text.Marks text span) statement)
    (mem : span ∈ statement.places) : Text.Marks text span := by
  rcases List.mem_append.mp mem with mem | mem
  · rcases List.mem_append.mp mem with mem | mem
    · exact of_mem_toList h.span mem
    · exact of_mem_toList h.path.span mem
  · obtain ⟨item, here, mem⟩ := List.mem_flatMap.mp mem
    exact of_mem_toList (List.forall₂_same.mp h.items item here).span mem

/-- What an outline records stands in the text. -/
theorem marks_of_mem_places (mem : span ∈ (read text).places) : Text.Marks text span := by
  have marked := marked_read text
  rcases List.mem_append.mp mem with mem | mem
  · obtain ⟨header, here, mem⟩ := List.mem_flatMap.mp mem
    exact marks_of_mem_header (List.forall₂_same.mp marked.declarations header here) mem
  · obtain ⟨statement, here, mem⟩ := List.mem_flatMap.mp mem
    exact marks_of_mem_statement (List.forall₂_same.mp marked.imports statement here) mem

/-- A form that breaks off is reported where it does so, and at its keyword. -/
theorem labels_unexpected {file : FileId} {expected : String} {found : Option Token}
    {item : Option Span} {label : Label}
    (mem : label ∈ ((SyntaxProblem.unexpected expected found span item).toDiagnostic file).labels) :
    label.file = file ∧ (label.span = span ∨ item = some label.span) := by
  cases item with
  | none =>
    obtain rfl := List.mem_singleton.mp mem
    exact ⟨rfl, .inl rfl⟩
  | some item =>
    rcases List.mem_pair.mp mem with rfl | rfl
    · exact ⟨rfl, .inl rfl⟩
    · exact ⟨rfl, .inr rfl⟩

/-- What is reported about the syntax of a text is reported about the file that it is taken for, at
stretches of the text. -/
theorem marks_of_mem_diagnostics {file : FileId} {diagnostic : Diagnostic}
    (mem : diagnostic ∈ (read text).diagnostics file) {label : Label}
    (here : label ∈ diagnostic.labels) : label.file = file ∧ Text.Marks text label.span := by
  obtain ⟨problem, there, rfl⟩ := List.mem_map.mp mem
  have marked := List.forall₂_same.mp (marked_read text).problems problem there
  cases marked with
  | strayToken same =>
    obtain rfl := List.mem_singleton.mp here
    cases same <;> exact ⟨rfl, ‹_›⟩
  | unexpected same item =>
    obtain ⟨inFile, place | start⟩ := labels_unexpected here
    · refine ⟨inFile, place ▸ ?_⟩
      cases same <;> assumption
    · exact ⟨inFile, of_mem_toList item (Option.mem_toList.mpr start)⟩
  | finished finish item =>
    obtain ⟨inFile, place | start⟩ := labels_unexpected here
    · exact ⟨inFile, place ▸ finish⟩
    · exact ⟨inFile, of_mem_toList item (Option.mem_toList.mpr start)⟩
  | nothingImported same =>
    obtain rfl := List.mem_singleton.mp here
    exact ⟨rfl, same⟩

end Outline

end LetModules
