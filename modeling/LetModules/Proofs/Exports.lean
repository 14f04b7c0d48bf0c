import LetModules.Exports
import LetModules.Proofs.Tree.Descent

/-!
Export sets, one name at a time: what a declaration exports (`exportOf_eq_some_iff`), and what a
module exports under a name (`lookup_eq_some_iff`).
-/

namespace LetModules

theorem Tier.isPrivate_iff {tier : Tier} : tier.isPrivate = true ↔ tier = .private :=
  decide_eq_true_iff

namespace Exports

variable {exports : Exports} {pairings : Pairings}

theorem exportOf_eq_some_iff {d : Declaration} {x : Export} :
    exports.exportOf pairings d = some x ↔
      (d.tier ≠ .private ∧ pairings.isEntryPoint d = false) ∧
        ∃ origin, exports.originOf d = some origin ∧ x = ⟨d.name, d, origin⟩ := by
  rw [exportOf]
  split
  · rename_i kept
    rw [Bool.or_eq_true, Tier.isPrivate_iff] at kept
    have out : ¬ (d.tier ≠ .private ∧ pairings.isEntryPoint d = false) := by
      rintro ⟨notPrivate, notEntry⟩
      simp [notPrivate, notEntry] at kept
    simp [out]
  · rename_i offered
    rw [Bool.or_eq_true, Tier.isPrivate_iff, not_or, Bool.not_eq_true] at offered
    rw [Option.map_eq_some_iff, and_iff_right offered]
    exact exists_congr fun origin => and_congr_right fun _ => eq_comm

/-- An export has the name of the declaration that makes it. -/
theorem name_of_exportOf {d : Declaration} {x : Export}
    (found : exports.exportOf pairings d = some x) : x.name = d.name := by
  obtain ⟨-, _, -, rfl⟩ := exportOf_eq_some_iff.mp found
  rfl

/-- A module exports a name once at most. -/
theorem nodup_names {m : Module} (distinct : (m.declarations.map (·.name)).Nodup) :
    (exports.names pairings m).Nodup := by
  have sub : ∀ l : List Declaration, ((l.filterMap (exports.exportOf pairings)).map
      (·.name)).Sublist (l.map (·.name)) := by
    intro l
    induction l with
    | nil => exact List.Sublist.refl _
    | cons d rest ih =>
      rw [List.filterMap_cons]
      split
      · exact ih.cons _
      · rename_i x found
        rw [List.map_cons, List.map_cons, name_of_exportOf found]
        exact ih.cons_cons _
  exact distinct.sublist (sub _)

/-- A module exports under a name what its declaration of that name exports. -/
theorem lookup_eq_some_iff {m : Module} (distinct : (m.declarations.map (·.name)).Nodup)
    {name : String} {x : Export} :
    exports.lookup pairings m name = some x ↔
      ∃ d ∈ m.declarations, d.name = name ∧ exports.exportOf pairings d = some x := by
  rw [lookup, find?_eq_some_iff_of_nodup (nodup_names distinct), ofModule, List.mem_filterMap]
  constructor
  · rintro ⟨⟨d, mem, found⟩, rfl⟩
    exact ⟨d, mem, (name_of_exportOf found).symm, found⟩
  · rintro ⟨d, mem, rfl, found⟩
    exact ⟨⟨d, mem, found⟩, name_of_exportOf found⟩

end Exports

end LetModules
