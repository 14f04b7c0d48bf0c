import LetModules.Binding
import LetModules.Proofs.Exports

/-!
Which imports succeed, and with what. A statement has a target if its path leads to another module
that exists for the importer or is tested by it (`target_eq_ok_iff`); an item is bound to what the
importer finds there (`Finds`, `bind_eq_ok_iff`).
-/

namespace LetModules

namespace Linked

variable {linked : Linked}

/-- A statement imports from the module that its path names, if that is another one and exists for
the importer or is tested by it. -/
theorem target_eq_ok_iff {path : ModulePath} {importer target : Module} :
    linked.target path importer = .ok target ↔
      linked.locate path importer = .ok target ∧ target.id ≠ importer.id ∧
        (linked.pairings.isPrivileged importer.id target.id ||
          linked.hasModule target importer) = true := by
  rw [Linked.target, named]
  cases linked.locate path importer with
  | error cause => simp
  | ok m =>
    dsimp only
    by_cases same : m.id = importer.id
    · rw [if_pos same]
      constructor
      · simp
      · rintro ⟨here, differ, -⟩
        exact absurd (Except.ok.inj here ▸ same) differ
    · rw [if_neg same]
      dsimp only
      split
      · rename_i found
        rw [Except.ok.injEq]
        exact ⟨fun here => here ▸ ⟨rfl, same, found⟩, And.left⟩
      · rename_i missing
        constructor
        · simp
        · rintro ⟨here, -, found⟩
          exact absurd (Except.ok.inj here ▸ found) missing

/-- The declaration `via` of the target, with the origin of it, is what the importer finds under a
name. -/
structure Finds (linked : Linked) (importer target : Module) (name : String)
    (via origin : Declaration) : Prop where
  declared : via ∈ target.declarations
  named : via.name = name
  origin : linked.exports.originOf via = some origin
  permitted : linked.pairings.isPrivileged importer.id target.id = true ∨
    (via.tier ≠ .private ∧ linked.pairings.isEntryPoint via = false) ∧
      linked.accessible via importer = true

theorem privileged_eq_ok_iff {target : Module}
    (distinct : (target.declarations.map (·.name)).Nodup) {name : String}
    {via origin : Declaration} : linked.privileged name target = .ok (via, origin) ↔
      via ∈ target.declarations ∧ via.name = name ∧ linked.exports.originOf via = some origin := by
  have declared : ∀ d, target.declaration? name = some d ↔
      d ∈ target.declarations ∧ d.name = name :=
    fun d => find?_eq_some_iff_of_nodup distinct
  rw [← and_assoc, ← declared, privileged]
  cases target.declaration? name with
  | none => simp
  | some d =>
    dsimp only
    rw [Option.some.injEq]
    constructor
    · intro found
      cases traced : linked.exports.originOf d with
      | none => simp [traced] at found
      | some o =>
        simp only [traced, Except.ok.injEq, Prod.mk.injEq] at found
        exact ⟨found.1, by rw [← found.1, traced, found.2]⟩
    · rintro ⟨rfl, traced⟩
      rw [traced]

theorem exported_eq_ok_iff {target importer : Module}
    (distinct : (target.declarations.map (·.name)).Nodup) {name : String}
    {via origin : Declaration} : linked.exported name target importer = .ok (via, origin) ↔
      via ∈ target.declarations ∧ via.name = name ∧ linked.exports.originOf via = some origin ∧
        (via.tier ≠ .private ∧ linked.pairings.isEntryPoint via = false) ∧
          linked.accessible via importer = true := by
  have found : linked.exports.lookup linked.pairings target name = some ⟨name, via, origin⟩ ↔
      via ∈ target.declarations ∧ via.name = name ∧ linked.exports.originOf via = some origin ∧
        via.tier ≠ .private ∧ linked.pairings.isEntryPoint via = false := by
    rw [Exports.lookup_eq_some_iff distinct]
    simp only [Exports.exportOf_eq_some_iff, Export.mk.injEq]
    constructor
    · rintro ⟨d, mem, named, offered, o, traced, -, rfl, rfl⟩
      exact ⟨mem, named, traced, offered⟩
    · rintro ⟨mem, rfl, traced, offered⟩
      exact ⟨via, mem, rfl, offered, origin, traced, rfl, rfl, rfl⟩
  have known : ∀ {x}, linked.exports.lookup linked.pairings target name = some x →
      x = ⟨name, x.published, x.origin⟩ := by
    intro x looked
    obtain ⟨d, -, named, exported⟩ := (Exports.lookup_eq_some_iff distinct).mp looked
    obtain ⟨-, o, -, rfl⟩ := Exports.exportOf_eq_some_iff.mp exported
    rw [named]
  rw [exported]
  constructor
  · intro result
    split at result
    · exact absurd result (by simp)
    · rename_i x looked
      split at result
      · rename_i accessible
        simp only [Except.ok.injEq, Prod.mk.injEq] at result
        obtain ⟨rfl, rfl⟩ := result
        rw [known looked] at looked
        obtain ⟨mem, named, traced, offered⟩ := found.mp looked
        exact ⟨mem, named, traced, offered, accessible⟩
      · exact absurd result (by simp)
  · rintro ⟨mem, named, traced, offered, accessible⟩
    rw [found.mpr ⟨mem, named, traced, offered⟩]
    dsimp only
    rw [if_pos accessible]

/-- An item is bound to what the importer finds in the target under its name. -/
theorem bind_eq_ok_iff {target importer : Module}
    (distinct : (target.declarations.map (·.name)).Nodup) {item : ImportItem} {b : Binding} :
    linked.bind item target importer = .ok b ↔ ∃ via origin,
      linked.Finds importer target item.name via origin ∧
        b = ⟨item.localName, item.name, origin, via, target, item.span⟩ := by
  have finds : ∀ via origin, linked.Finds importer target item.name via origin ↔
      (if linked.pairings.isPrivileged importer.id target.id then
        linked.privileged item.name target
      else linked.exported item.name target importer) = .ok (via, origin) := by
    intro via origin
    split
    · rename_i privileged
      rw [privileged_eq_ok_iff distinct]
      exact ⟨fun h => ⟨h.declared, h.named, h.origin⟩,
        fun ⟨declared, named, traced⟩ => ⟨declared, named, traced, .inl privileged⟩⟩
    · rename_i unprivileged
      rw [exported_eq_ok_iff distinct]
      exact ⟨fun h => ⟨h.declared, h.named, h.origin, h.permitted.resolve_left unprivileged⟩,
        fun ⟨declared, named, traced, offered⟩ => ⟨declared, named, traced, .inr offered⟩⟩
  simp only [finds]
  rw [bind]
  dsimp only
  generalize (if linked.pairings.isPrivileged importer.id target.id then
    linked.privileged item.name target else linked.exported item.name target importer) = found
  cases found with
  | error cause => simp [Except.map]
  | ok pair =>
    obtain ⟨via, origin⟩ := pair
    simp [Except.map, eq_comm]

end Linked

end LetModules
