import LetModules.Proofs.Token.Piece
import Mathlib.Data.String.Basic

/-!
Cutting a source text into tokens loses nothing (`lossless_lex`): the tokens stand in the text one
after another, each on the very bytes that it is written with, and all that is between them is blank
space and complete comments. It holds of every text, also where literals and comments do not end.

A text is first laid out as gaps and tokens in turn (`Tiled`), with characters for places; what is
said of bytes then follows from the characters that come before.
-/

namespace LetModules

namespace Text

/-- The bytes of a text from `start` up to, not including, `stop`. -/
def slice (text : String) (start stop : Nat) : String :=
  String.Pos.Raw.extract text ⟨start⟩ ⟨stop⟩

/-- No character has bytes on both sides of the place. -/
def IsBoundary (text : String) (n : Nat) : Prop := String.Pos.Raw.IsValid text ⟨n⟩

theorem byteLength_eq_utf8Len (cs : List Char) : byteLength cs = String.utf8Len cs := by
  induction cs with
  | nil => rfl
  | cons c cs ih => rw [byteLength, ih, String.utf8Len_cons, Nat.add_comm]

@[simp] theorem byteLength_append (cs ds : List Char) :
    byteLength (cs ++ ds) = byteLength cs + byteLength ds := by
  simp [byteLength_eq_utf8Len]

theorem byteLength_pos {cs : List Char} (h : cs ≠ []) : 0 < byteLength cs := by
  obtain ⟨c, cs, rfl⟩ := List.exists_cons_of_ne_nil h
  exact Nat.add_pos_left c.utf8Size_pos _

variable {text : String} {before word after : List Char}

theorem utf8ByteSize_eq (text : String) : text.utf8ByteSize = byteLength text.toList := by
  rw [byteLength_eq_utf8Len, ← String.utf8ByteSize_ofList, String.ofList_toList]

/-- The bytes after those of `before` up to those of `word` hold `word`. -/
theorem slice_eq (h : text.toList = before ++ word ++ after) :
    slice text (byteLength before) (byteLength (before ++ word)) = String.ofList word := by
  have whole : text = String.ofList (before ++ word ++ after) := by rw [← h, String.ofList_toList]
  rw [whole, slice, byteLength_append, byteLength_eq_utf8Len, byteLength_eq_utf8Len]
  exact String.extract_of_valid before word after

/-- The bytes after those of `before` hold the rest of the text. -/
theorem slice_utf8ByteSize_eq (h : text.toList = before ++ after) :
    slice text (byteLength before) text.utf8ByteSize = String.ofList after := by
  have size : text.utf8ByteSize = byteLength (before ++ after) := by rw [utf8ByteSize_eq, h]
  have whole : text.toList = before ++ after ++ [] := by rw [h, List.append_nil]
  rw [size]
  exact slice_eq whole

theorem isBoundary_of_eq (h : text.toList = before ++ after) :
    IsBoundary text (byteLength before) := by
  have whole : text = String.ofList before ++ String.ofList after := by
    rw [← String.ofList_append, ← h, String.ofList_toList]
  refine String.Pos.Raw.isValid_iff_exists_append.mpr ⟨_, _, whole, ?_⟩
  rw [← String.toList_ofList (l := before), ← utf8ByteSize_eq, String.toList_ofList]
  rfl

end Text

open Text (byteLength slice)

/-- The stretches before, between and after the tokens of a text that goes from `start` to
`stop`. -/
def gapsFrom (start stop : Nat) : List Lexeme → List (Nat × Nat)
  | [] => [(start, stop)]
  | lexeme :: lexemes => (start, lexeme.span.start) :: gapsFrom lexeme.span.stop stop lexemes

/-- The bytes from `start` up to `stop` are what may stand around tokens. -/
def IsGap (source : String) (start stop : Nat) : Prop :=
  Gap (slice source stop source.utf8ByteSize).toList (slice source start stop).toList

/-- The token stands in the text where its span says: on whole characters, at least one, and on just
those that it is written with. -/
structure Lexeme.StandsIn (source : String) (lexeme : Lexeme) : Prop where
  nonempty : lexeme.span.start < lexeme.span.stop
  inside : lexeme.span.stop ≤ source.utf8ByteSize
  boundaries : Text.IsBoundary source lexeme.span.start ∧ Text.IsBoundary source lexeme.span.stop
  text : slice source lexeme.span.start lexeme.span.stop = lexeme.token.written

/-- The tokens account for the whole text. -/
structure Lossless (source : String) (lexemes : List Lexeme) : Prop where
  standing : ∀ lexeme ∈ lexemes, lexeme.StandsIn source
  increasing : lexemes.Pairwise (·.span.start < ·.span.start)
  disjoint : lexemes.Pairwise (·.span.stop ≤ ·.span.start)
  gaps : ∀ gap ∈ gapsFrom 0 source.utf8ByteSize lexemes, IsGap source gap.1 gap.2

theorem isGap_of_eq {source : String} {before gap after : List Char}
    (h : source.toList = before ++ gap ++ after) (blank : Gap after gap) :
    IsGap source (byteLength before) (byteLength (before ++ gap)) := by
  rw [IsGap, Text.slice_eq h, Text.slice_utf8ByteSize_eq h, String.toList_ofList,
    String.toList_ofList]
  exact blank

/-- What follows `before`, laid out as gaps and tokens in turn. -/
inductive Tiled : List Char → List Char → List Lexeme → Prop where
  | last {before gap : List Char} (blank : Gap [] gap) : Tiled before gap []
  | next {before gap word rest : List Char} {token : Token} {lexemes : List Lexeme}
      (blank : Gap (word ++ rest) gap) (nonempty : word ≠ [])
      (written : token.written = String.ofList word)
      (tiled : Tiled (before ++ gap ++ word) rest lexemes) :
      Tiled before (gap ++ word ++ rest)
        (⟨token, .ofLength (byteLength (before ++ gap)) (byteLength word)⟩ :: lexemes)

namespace Tiled

variable {before cs : List Char} {lexemes : List Lexeme}

/-- What leads from one gap on to another can be put in front of a layout. -/
theorem skip {more : List Char} (tiled : Tiled (before ++ more) cs lexemes)
    (extends_gap : ∀ gap after, cs = gap ++ after → Gap after gap → Gap after (more ++ gap)) :
    Tiled before (more ++ cs) lexemes := by
  cases tiled with
  | last blank => exact .last (extends_gap _ [] (List.append_nil _).symm blank)
  | @next _ gap word rest token lexemes blank nonempty written tiled =>
    have longer : Gap (word ++ rest) (more ++ gap) :=
      extends_gap gap (word ++ rest) (List.append_assoc ..) blank
    rw [List.append_assoc before] at tiled
    rw [List.append_assoc before, ← List.append_assoc more, ← List.append_assoc more]
    exact .next longer nonempty written tiled

/-- A token can be put in front of a layout. -/
theorem token {word : List Char} {token : Token} (tiled : Tiled (before ++ word) cs lexemes)
    (nonempty : word ≠ []) (written : token.written = String.ofList word) :
    Tiled before (word ++ cs)
      (⟨token, .ofLength (byteLength before) (byteLength word)⟩ :: lexemes) := by
  have laid := Tiled.next .nil nonempty written ((List.append_nil before).symm ▸ tiled)
  simpa using laid

theorem byteLength_le_start (tiled : Tiled before cs lexemes) {l : Lexeme} (hl : l ∈ lexemes) :
    byteLength before ≤ l.span.start := by
  induction tiled with
  | last => cases hl
  | @next before gap word rest token lexemes _ _ _ _ ih =>
    have further : byteLength before ≤ byteLength (before ++ gap) := by simp
    rcases List.mem_cons.mp hl with rfl | hl
    · exact further
    · have later := ih hl
      rw [Text.byteLength_append _ word] at later
      omega

theorem pairwise_stop_le_start (tiled : Tiled before cs lexemes) :
    lexemes.Pairwise (·.span.stop ≤ ·.span.start) := by
  induction tiled with
  | last => exact .nil
  | next _ _ _ tiled ih =>
    refine .cons (fun l hl => ?_) ih
    have later := tiled.byteLength_le_start hl
    rwa [Text.byteLength_append] at later

/-- The tokens of a layout stand in the text. -/
theorem standsIn (tiled : Tiled before cs lexemes) {source : String}
    (h : source.toList = before ++ cs) {l : Lexeme} (hl : l ∈ lexemes) : l.StandsIn source := by
  induction tiled with
  | last => cases hl
  | @next before gap word rest token lexemes blank nonempty written tiled ih =>
    have text : source.toList = before ++ gap ++ word ++ rest := by simp [h]
    rcases List.mem_cons.mp hl with rfl | hl
    · have stop : (Span.ofLength (byteLength (before ++ gap)) (byteLength word)).stop =
          byteLength (before ++ gap ++ word) := (Text.byteLength_append ..).symm
      constructor
      case nonempty => exact Nat.lt_add_of_pos_right (Text.byteLength_pos nonempty)
      case inside =>
        rw [stop, Text.utf8ByteSize_eq, text, Text.byteLength_append _ rest]
        exact Nat.le_add_right _ _
      case boundaries =>
        rw [stop]
        exact ⟨Text.isBoundary_of_eq (text.trans (List.append_assoc ..)),
          Text.isBoundary_of_eq text⟩
      case text =>
        rw [stop, written]
        exact Text.slice_eq text
    · exact ih text hl

/-- Between the tokens of a layout there are gaps. -/
theorem isGap_of_mem_gapsFrom (tiled : Tiled before cs lexemes) {source : String}
    (h : source.toList = before ++ cs) {between : Nat × Nat}
    (hb : between ∈ gapsFrom (byteLength before) source.utf8ByteSize lexemes) :
    IsGap source between.1 between.2 := by
  induction tiled with
  | @last before gap blank =>
    obtain rfl := List.mem_singleton.mp hb
    rw [Text.utf8ByteSize_eq, h]
    exact isGap_of_eq (by rw [h, List.append_nil]) blank
  | @next before gap word rest token lexemes blank nonempty written tiled ih =>
    have text : source.toList = before ++ gap ++ (word ++ rest) := by simp [h]
    rcases List.mem_cons.mp hb with rfl | hb
    · exact isGap_of_eq text blank
    · refine ih (by simp [text]) ?_
      rwa [Text.byteLength_append]

end Tiled

/-- The scan lays out the whole text. -/
theorem Token.Lexer.tiled_scan (cs before : List Char) :
    Tiled before cs (scan cs (byteLength before)) := by
  generalize hs : byteLength before = start
  induction cs, start using scan.induct generalizing before with
  | case1 => rw [scan]; exact .last .nil
  | case2 c cs start more span token eq ih =>
    have cut := cuts_piece c cs
    have tiled := ih (before ++ c :: more) (by rw [Text.byteLength_append, hs]; rfl)
    rw [eq] at cut
    obtain ⟨rfl, written⟩ := cut
    rw [List.drop_left] at tiled
    rw [scan, eq]
    simp only [List.drop_left]
    subst hs
    exact tiled.token (List.cons_ne_nil c more) written
  | case3 c cs start more span eq ih =>
    have cut := cuts_piece c cs
    have tiled := ih (before ++ c :: more) (by rw [Text.byteLength_append, hs]; rfl)
    rw [eq] at cut
    obtain ⟨⟩ | ⟨rfl, extends_gap⟩ := cut
    rw [List.drop_left] at tiled
    rw [scan, eq]
    simp only [List.drop_left]
    exact tiled.skip extends_gap

/-- Cutting a text into tokens loses nothing. -/
theorem lossless_lex (source : String) : Lossless source (lex source) := by
  have tiled : Tiled [] source.toList (lex source) := Token.Lexer.tiled_scan source.toList []
  have standing : ∀ l ∈ lex source, l.StandsIn source := fun l hl => tiled.standsIn rfl hl
  have disjoint := tiled.pairwise_stop_le_start
  have increasing : (lex source).Pairwise (·.span.start < ·.span.start) :=
    disjoint.imp_of_mem fun ha _ apart => (standing _ ha).nonempty.trans_le apart
  exact ⟨standing, increasing, disjoint, fun _ => tiled.isGap_of_mem_gapsFrom rfl⟩

/-- A character of two bytes, a comment, and a literal whose last backslash has nothing to take. -/
example : lex "é /*a*/ \"b\\" =
    [⟨.unknown "é", .ofLength 0 2⟩, ⟨.unknown "\"b", .ofLength 9 2⟩,
      ⟨.unknown "\\", .ofLength 11 1⟩] := by
  decide +kernel

end LetModules
