import LetModules.Layout

/-!
Paths as text. What is written with `::` between its segments is cut at the same places when it is
read, as long as no segment has a colon of its own (`segments_joined`); and the lenient reading of
imports cuts nothing more away from names that have no blank at their ends (`parse_joined`).
-/

namespace LetModules

namespace Text

/-- A name that stands for itself as a segment of a path: there is something of it, it has no colon,
and no blank space around it. -/
structure Plain (name : String) : Prop where
  nonempty : name ≠ ""
  uncut : ':' ∉ name.toList
  trimmed : trim name = name

instance (name : String) : Decidable (Plain name) :=
  decidable_of_iff (name ≠ "" ∧ ':' ∉ name.toList ∧ trim name = name)
    ⟨fun ⟨nonempty, uncut, trimmed⟩ => ⟨nonempty, uncut, trimmed⟩,
      fun plain => ⟨plain.nonempty, plain.uncut, plain.trimmed⟩⟩

/-- A character other than a colon belongs to the first piece. -/
theorem cutAtColons_cons {c : Char} (other : c ≠ ':') {rest piece : List Char}
    {pieces : List (List Char)} (cut : cutAtColons rest = piece :: pieces) :
    cutAtColons (c :: rest) = (c :: piece) :: pieces := by
  rw [cutAtColons.eq_def]
  split
  · contradiction
  · rename_i same
    exact absurd (List.cons.inj same).1 other
  · rename_i same
    obtain ⟨rfl, rfl⟩ := List.cons.inj same
    rw [cut]

/-- A text without colons is one piece. -/
theorem cutAtColons_of_uncut : ∀ {cs : List Char}, ':' ∉ cs → cutAtColons cs = [cs]
  | [], _ => rfl
  | _ :: _, uncut =>
    cutAtColons_cons (fun same => uncut (same ▸ List.mem_cons_self))
      (cutAtColons_of_uncut fun there => uncut (List.mem_cons_of_mem _ there))

/-- What comes before the first colons is a piece, if they are two. -/
theorem cutAtColons_append (rest : List Char) : ∀ {cs : List Char}, ':' ∉ cs →
    cutAtColons (cs ++ ':' :: ':' :: rest) = cs :: cutAtColons rest
  | [], _ => rfl
  | _ :: _, uncut =>
    cutAtColons_cons (fun same => uncut (same ▸ List.mem_cons_self))
      (cutAtColons_append rest fun there => uncut (List.mem_cons_of_mem _ there))

/-- Segments without colons are read as they were written, if there are any. -/
theorem segments_joined : ∀ {names : List String}, names ≠ [] →
    (∀ name ∈ names, ':' ∉ name.toList) → segments (joined names) = names
  | [name], _, uncut => by
    rw [joined, String.intercalate_singleton, segments,
      cutAtColons_of_uncut (uncut name List.mem_cons_self), List.map_singleton, String.ofList_toList]
  | name :: next :: rest, _, uncut => by
    have ih : segments (joined (next :: rest)) = next :: rest :=
      segments_joined (List.cons_ne_nil _ _) fun n hn => uncut n (List.mem_cons_of_mem _ hn)
    have written : (joined (name :: next :: rest)).toList =
        name.toList ++ ':' :: ':' :: (joined (next :: rest)).toList := by
      rw [joined, String.intercalate_cons_cons, String.toList_append, String.toList_append,
        List.append_assoc]
      rfl
    rw [segments, written, cutAtColons_append _ (uncut name List.mem_cons_self), List.map_cons,
      String.ofList_toList]
    exact congrArg (name :: ·) ih

/-- Plain names are read as they were written. -/
theorem trimmedSegments_joined {names : List String} (plain : ∀ name ∈ names, Plain name) :
    trimmedSegments (joined names) = names := by
  by_cases none : names = []
  · subst none
    rfl
  rw [trimmedSegments, segments_joined none fun name mem => (plain name mem).uncut,
    List.map_congr_left fun name mem => (plain name mem).trimmed, List.map_id']
  exact List.filter_eq_self.mpr fun name mem => decide_eq_true (plain name mem).nonempty

end Text

/-- The text of a path of plain names is read as that path. -/
theorem ModulePath.parse_joined {names : List String} (plain : ∀ name ∈ names, Text.Plain name) :
    ModulePath.parse (Text.joined names) = ⟨names, none⟩ := by
  rw [ModulePath.parse, Text.trimmedSegments_joined plain]

end LetModules
