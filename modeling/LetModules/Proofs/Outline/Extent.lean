import LetModules.Proofs.Outline.Recovery

/-!
Where what a reader finds has its place. A reader takes the first of the tokens that it is given,
and the places that it finds are joined from places of these tokens. So they lie in every stretch
that holds the tokens (`Held`), and the place of a whole phrase goes from the first of its tokens to
the last (`Frames`).
-/

namespace LetModules

/-- The stretch lies inside the other. -/
def Span.Within (inner outer : Span) : Prop :=
  outer.start ≤ inner.start ∧ inner.stop ≤ outer.stop

theorem Span.Within.join {a b outer : Span} (h : a.Within outer) (h' : b.Within outer) :
    (a.join b).Within outer :=
  ⟨Nat.le_min.mpr ⟨h.1, h'.1⟩, Nat.max_le.mpr ⟨h.2, h'.2⟩⟩

@[simp] theorem Span.join_self (a : Span) : a.join a = a := by
  cases a
  simp [Span.join]

namespace Outline

/-- Every stretch that holds the tokens holds this one. -/
def Held (used : List Lexeme) (span : Span) : Prop :=
  ∀ hull : Span, (∀ l ∈ used, l.span.Within hull) → span.Within hull

/-- Each of these places is known, and held by the tokens. -/
def AllHeld (used : List Lexeme) (places : List (Option Span)) : Prop :=
  ∀ place ∈ places, ∃ span, place = some span ∧ Held used span

/-- The stretch goes from the first of the tokens to the last. -/
structure Frames (used : List Lexeme) (span : Span) : Prop where
  begins : ∃ first, used.head? = some first ∧ span.start ≤ first.span.start
  ends : ∃ last, used.getLast? = some last ∧ last.span.stop ≤ span.stop
  held : Held used span

variable {used more : List Lexeme} {span : Span}

theorem held_of_mem {l : Lexeme} (hl : l ∈ used) : Held used l.span := fun _ within => within l hl

theorem Held.mono (held : Held used span) (sub : used ⊆ more) : Held more span :=
  fun hull within => held hull fun l hl => within l (sub hl)

theorem Held.join {a b : Span} (h : Held used a) (h' : Held used b) : Held used (a.join b) :=
  fun hull within => (h hull within).join (h' hull within)

theorem AllHeld.mono {places : List (Option Span)} (held : AllHeld used places)
    (sub : used ⊆ more) : AllHeld more places := by
  intro place hp
  obtain ⟨span, same, held⟩ := held place hp
  exact ⟨span, same, held.mono sub⟩

theorem AllHeld.cons {place : Option Span} {places : List (Option Span)}
    (h : ∃ span, place = some span ∧ Held used span) (held : AllHeld used places) :
    AllHeld used (place :: places) :=
  List.forall_mem_cons.mpr ⟨h, held⟩

namespace Frames

theorem single (l : Lexeme) : Frames [l] l.span :=
  ⟨⟨l, rfl, Nat.le_refl _⟩, ⟨l, rfl, Nat.le_refl _⟩, held_of_mem (List.mem_singleton_self l)⟩

/-- From the first of the tokens in front to the last of those at the end. -/
theorem join {front between back : List Lexeme} {a b : Span} (h : Frames front a)
    (h' : Frames back b) : Frames (front ++ between ++ back) (a.join b) where
  begins := by
    obtain ⟨first, head, le⟩ := h.begins
    refine ⟨first, ?_, Nat.le_trans (Nat.min_le_left _ _) le⟩
    rw [List.append_assoc, List.head?_append, head, Option.some_or]
  ends := by
    obtain ⟨last, tail, le⟩ := h'.ends
    refine ⟨last, ?_, Nat.le_trans le (Nat.le_max_right _ _)⟩
    rw [List.getLast?_append, tail, Option.some_or]
  held := by
    refine (h.held.mono ?_).join (h'.held.mono ?_)
    · rw [List.append_assoc]
      exact List.subset_append_left _ _
    · exact List.subset_append_right _ _

/-- Where tokens stand one after the other, the stretch begins where the first begins and ends where
the last ends, and whatever they hold lies inside. -/
theorem bounds (frames : Frames used span)
    (order : used.Pairwise (·.span.stop ≤ ·.span.start)) : ∃ first last,
      used.head? = some first ∧ used.getLast? = some last ∧ span.start = first.span.start ∧
        span.stop = last.span.stop ∧ ∀ inner, Held used inner → inner.Within span := by
  obtain ⟨first, head, startLe⟩ := frames.begins
  obtain ⟨last, tail, leStop⟩ := frames.ends
  have after : ∀ l ∈ used, first.span.start ≤ l.span.start := by
    obtain ⟨more, rfl⟩ := List.head?_eq_some_iff.mp head
    refine List.forall_mem_cons.mpr ⟨Nat.le_refl _, fun l hl => ?_⟩
    exact Nat.le_trans first.span.start_le_stop (List.rel_of_pairwise_cons order hl)
  have before : ∀ l ∈ used, l.span.stop ≤ last.span.stop := by
    obtain ⟨init, rfl⟩ := List.getLast?_eq_some_iff.mp tail
    intro l hl
    rcases List.mem_append.mp hl with hl | hl
    · have apart := (List.pairwise_append.mp order).2.2 l hl last (List.mem_singleton_self last)
      exact Nat.le_trans apart last.span.start_le_stop
    · rw [List.mem_singleton.mp hl]
  have proper : first.span.start ≤ last.span.stop :=
    Nat.le_trans (after last (List.mem_of_getLast? tail)) last.span.start_le_stop
  have hull : ∀ inner, Held used inner → inner.Within ⟨_, _, proper⟩ :=
    fun inner held => held ⟨_, _, proper⟩ fun l hl => ⟨after l hl, before l hl⟩
  obtain ⟨leStart, stopLe⟩ := hull span frames.held
  have start : span.start = first.span.start := Nat.le_antisymm startLe leStart
  have stop : span.stop = last.span.stop := Nat.le_antisymm stopLe leStop
  refine ⟨first, last, head, tail, start, stop, fun inner held => ?_⟩
  obtain ⟨le, le'⟩ := hull inner held
  exact ⟨start ▸ le, stop ▸ le'⟩

end Frames

namespace Reader

variable {lexemes rest : List Lexeme}

theorem segments_placed {names : List (String × Span)} (h : segments lexemes = .done names rest) :
    ∃ used, lexemes = used ++ rest ∧ ∀ first : Lexeme,
      (used.getLast?.getD first).span = (names.getLast?.map (·.2)).getD first.span := by
  fun_induction segments lexemes generalizing names with
  | case1 _ name span later ih =>
    obtain ⟨names, read, rfl⟩ := Parse.map_eq_done_iff.mp h
    obtain ⟨used, rfl, last⟩ := ih read
    refine ⟨_ :: _ :: used, rfl, fun first => ?_⟩
    rw [List.getLast?_cons_cons, List.getLast?_cons, List.getLast?_cons]
    exact (last ⟨_, span⟩).trans (Option.getD_map Prod.snd (name, span) names.getLast?)
  | case2 => exact absurd h (by simp)
  | case3 =>
    cases h
    exact ⟨[], rfl, fun _ => rfl⟩

theorem frames_pathOf (first : Lexeme) (name : String) {names : List (String × Span)}
    (last : (used.getLast?.getD first).span = (names.getLast?.map (·.2)).getD first.span) :
    Frames (first :: used) (pathOf (name, first.span) names).2 := by
  rw [pathOf]
  dsimp only
  rw [← last]
  cases tail : used.getLast? with
  | none =>
    obtain rfl := List.getLast?_eq_none_iff.mp tail
    simpa using Frames.single first
  | some l =>
    obtain ⟨init, rfl⟩ := List.getLast?_eq_some_iff.mp tail
    exact (Frames.single first).join (Frames.single l)

theorem path_placed {found : ModulePath × Span} (h : path lexemes = .done found rest) :
    ∃ used, lexemes = used ++ rest ∧ found.1.span = some found.2 ∧ Frames used found.2 := by
  revert h
  fun_cases path lexemes with
  | case1 name span later =>
    intro h
    obtain ⟨names, read, rfl⟩ := Parse.map_eq_done_iff.mp h
    obtain ⟨used, rfl, last⟩ := segments_placed read
    exact ⟨_ :: used, rfl, rfl, frames_pathOf ⟨_, span⟩ name (last _)⟩
  | case2 name span later =>
    intro h
    obtain ⟨names, read, rfl⟩ := Parse.map_eq_done_iff.mp h
    obtain ⟨used, rfl, last⟩ := segments_placed read
    exact ⟨_ :: used, rfl, rfl, frames_pathOf ⟨_, span⟩ name (last _)⟩
  | case3 => simp

theorem items_placed {found : List ImportItem} (h : items lexemes = .done found rest) :
    ∃ used, lexemes = used ++ rest ∧ AllHeld used (found.map (·.span)) := by
  fun_induction items lexemes generalizing found with
  | case1 =>
    cases h
    exact ⟨[_], rfl, List.forall_mem_nil _⟩
  | case2 name span word bound boundSpan item comma =>
    rename_i ih
    obtain ⟨found, read, rfl⟩ := Parse.map_eq_done_iff.mp h
    obtain ⟨used, rfl, placed⟩ := ih read
    refine ⟨⟨.ident name, span⟩ :: ⟨.keyword .asWord, word⟩ :: ⟨.ident bound, boundSpan⟩ ::
      ⟨.punct .comma, comma⟩ :: used, rfl, .cons ⟨_, rfl, ?_⟩ (placed.mono ?_)⟩
    · exact (held_of_mem (l := ⟨.ident name, span⟩) (by simp)).join
        (held_of_mem (l := ⟨.ident bound, boundSpan⟩) (by simp))
    · exact List.subset_append_right [_, _, _, _] used
  | case3 name span word bound boundSpan item brace =>
    cases h
    refine ⟨[⟨.ident name, span⟩, ⟨.keyword .asWord, word⟩, ⟨.ident bound, boundSpan⟩,
      ⟨.punct .rightBrace, brace⟩], rfl, .cons ⟨_, rfl, ?_⟩ (List.forall_mem_nil _)⟩
    exact (held_of_mem (l := ⟨.ident name, span⟩) (by simp)).join
      (held_of_mem (l := ⟨.ident bound, boundSpan⟩) (by simp))
  | case4 => exact absurd h (by simp)
  | case5 => exact absurd h (by simp)
  | case6 name span item comma =>
    rename_i ih
    obtain ⟨found, read, rfl⟩ := Parse.map_eq_done_iff.mp h
    obtain ⟨used, rfl, placed⟩ := ih read
    refine ⟨⟨.ident name, span⟩ :: ⟨.punct .comma, comma⟩ :: used, rfl, .cons ⟨_, rfl, ?_⟩
      (placed.mono (List.subset_append_right [_, _] used))⟩
    exact held_of_mem (l := ⟨.ident name, span⟩) (by simp)
  | case7 name span item brace =>
    cases h
    refine ⟨[⟨.ident name, span⟩, ⟨.punct .rightBrace, brace⟩], rfl, .cons ⟨_, rfl, ?_⟩
      (List.forall_mem_nil _)⟩
    exact held_of_mem (l := ⟨.ident name, span⟩) (by simp)
  | case8 => exact absurd h (by simp)
  | case9 => exact absurd h (by simp)

/-- The source of a re-export ends with its path or with a semicolon. -/
theorem source_placed {found : ModulePath × Span} (h : source lexemes = .done found rest) :
    ∃ front back, lexemes = front ++ back ++ rest ∧ Frames back found.2 ∧
      ∃ span, found.1.span = some span ∧ Held (front ++ back) span := by
  obtain ⟨led, last, read, ended⟩ := Parse.bind_eq_done_iff.mp h
  obtain ⟨used, rfl, place, frames⟩ := path_placed read
  obtain ⟨value, left⟩ := Parse.done.inj ended
  obtain rfl : (led.1, (semicolon last).1.getD led.2) = found := value
  obtain rfl : (semicolon last).2 = rest := left
  fun_cases semicolon last with
  | case1 span later =>
    refine ⟨used, [⟨.punct .semicolon, span⟩], by simp, .single _, led.2, place, ?_⟩
    exact frames.held.mono (List.subset_append_left _ _)
  | case2 => exact ⟨[], used, rfl, frames, led.2, place, frames.held⟩

/-- The end of an import statement is read like the source of a re-export. -/
theorem source_map (f : ModulePath × Span → α) (tokens : List Lexeme) :
    ((path tokens).bind fun (path, pathSpan) rest =>
      let (stop, rest) := semicolon rest
      .done (f (path, stop.getD pathSpan)) rest) = (source tokens).map f := by
  rw [source]
  cases path tokens <;> rfl

theorem importStatement_placed {start : Lexeme} {statement : ImportStatement}
    (h : importStatement start.span lexemes = .done statement rest) :
    ∃ used span, lexemes = used ++ rest ∧ statement.span = some span ∧
      Frames (start :: used) span ∧
        AllHeld used (statement.path.span :: statement.items.map (·.span)) := by
  obtain ⟨bracePlace, afterBrace, opened, h⟩ := Parse.bind_eq_done_iff.mp h
  obtain ⟨listed, afterItems, read, h⟩ := Parse.bind_eq_done_iff.mp h
  obtain ⟨wordPlace, afterFrom, word, h⟩ := Parse.bind_eq_done_iff.mp h
  rw [source_map fun found =>
    ImportStatement.mk found.1 listed (some (start.span.join found.2))] at h
  obtain ⟨found, led, rfl⟩ := Parse.map_eq_done_iff.mp h
  -- the tokens that are read, from the last to the first
  obtain ⟨front, back, rfl, frames, place, same, held⟩ := source_placed led
  obtain rfl := expect_sound word
  obtain ⟨items, rfl, placed⟩ := items_placed read
  obtain rfl := expect_sound opened
  refine ⟨⟨.punct .leftBrace, bracePlace⟩ :: (items ++ ⟨.keyword .fromWord, wordPlace⟩ :: front) ++
    back, _, by simp, rfl, ?_, ?_⟩
  · exact (Frames.single start).join frames
  · refine .cons ⟨place, same, held.mono fun l hl => ?_⟩ (placed.mono fun l hl => by simp [hl])
    rcases List.mem_append.mp hl with hl | hl <;> simp [hl]

end Reader

end Outline

end LetModules
