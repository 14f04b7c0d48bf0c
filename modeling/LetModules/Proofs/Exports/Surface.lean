import LetModules.Proofs.Binding.Sites
import LetModules.Proofs.Exports
import LetModules.Proofs.Reexport.Origin

/-!
The surface of a module. What it declares is hidden, or a re-export that stands for nothing, or an
entry point, or exported. Two rules that know nothing of each other sort this out, the one that
lists what is run as a test and the one that fills export sets; between them nothing is left over
and nothing is taken twice (`surface_ofSources`).
-/

namespace LetModules

/-- What a declaration is to other modules. -/
inductive Standing where
  | hidden
  | broken
  | entryPoint
  | exported
  deriving DecidableEq, Repr

namespace Linked

variable (linked : Linked) (m : Module)

/-- The declaration of `m` has the standing: it is private; it could be taken over but stands for
nothing; it is listed to be run; it is in the export set, under its name and with its origin. -/
def Stands (d : Declaration) : Standing → Prop
  | .hidden => d.tier = .private
  | .broken => d.tier ≠ .private ∧ d.isReexport = true ∧ linked.exports.originOf d = none
  | .entryPoint => d ∈ linked.pairings.entryPoints m
  | .exported => ∃ x, linked.exports.lookup linked.pairings m d.name = some x ∧ x.published = d ∧
      linked.exports.originOf d = some x.origin

/-- The standing of a declaration, by its tier, its pairing and its origin. -/
def standing (d : Declaration) : Standing :=
  if d.tier.isPrivate then .hidden
  else if linked.pairings.isEntryPoint d then .entryPoint
  else if (linked.exports.originOf d).isSome then .exported
  else .broken

/-- Each declaration has one standing. Exported are the names of those with that standing, each
once; only a paired test has entry points; and all re-exports have been followed. -/
structure Surface : Prop where
  one : ∀ d ∈ m.declarations, ∃! standing, linked.Stands m d standing
  distinct : (linked.exports.names linked.pairings m).Nodup
  names : ∀ name, name ∈ linked.exports.names linked.pairings m ↔
    ∃ d ∈ m.declarations, d.name = name ∧ linked.Stands m d .exported
  entryPoints : linked.pairings.entryPoints m ≠ [] →
    ∃ production, ⟨m, production⟩ ∈ linked.pairings
  followed : ∀ d ∈ m.declarations, d.isReexport = true → ∃ o, (d.id, o) ∈ linked.exports.origins

variable {linked m} {d : Declaration}

/-- A concrete declaration stands for itself, so only re-exports can be broken. -/
theorem isReexport_of_originOf_eq_none {exports : Exports} (lost : exports.originOf d = none) :
    d.isReexport = true := by
  by_contra concrete
  rw [Exports.originOf, if_neg concrete] at lost
  exact absurd lost (by simp)

theorem mem_entryPoints_iff (declared : d ∈ m.declarations) :
    d ∈ linked.pairings.entryPoints m ↔ linked.pairings.isEntryPoint d = true := by
  rw [Pairings.entryPoints, List.mem_filter, and_iff_right declared]

/-- Entry points are public and concrete. -/
theorem fields_of_isEntryPoint {pairings : Pairings} (runs : pairings.isEntryPoint d = true) :
    d.tier = .public ∧ d.isReexport = false ∧ pairings.isPairedTest d.owner = true := by
  simpa [Pairings.isEntryPoint, and_assoc] using runs

/-- A declaration is in the export set if it is offered and stands for something. -/
theorem stands_exported_iff (distinct : (m.declarations.map (·.name)).Nodup)
    (declared : d ∈ m.declarations) : linked.Stands m d .exported ↔
      (d.tier ≠ .private ∧ linked.pairings.isEntryPoint d = false) ∧
        (linked.exports.originOf d).isSome = true := by
  simp only [Stands, Exports.lookup_eq_some_iff distinct, Exports.exportOf_eq_some_iff,
    Option.isSome_iff_exists]
  constructor
  · rintro ⟨_, ⟨e, -, -, offered, o, traced, rfl⟩, rfl, -⟩
    exact ⟨offered, o, traced⟩
  · rintro ⟨offered, o, traced⟩
    exact ⟨⟨d.name, d, o⟩, ⟨d, declared, rfl, offered, o, traced, rfl⟩, rfl, traced⟩

/-- A declaration has the standing that is computed for it. -/
theorem stands_standing (distinct : (m.declarations.map (·.name)).Nodup)
    (declared : d ∈ m.declarations) : linked.Stands m d (linked.standing d) := by
  rw [standing]
  split
  · rename_i concealed
    exact Tier.isPrivate_iff.mp concealed
  · rename_i offered
    rw [Tier.isPrivate_iff] at offered
    split
    · rename_i runs
      exact (mem_entryPoints_iff declared).mpr runs
    · rename_i idle
      split
      · rename_i traced
        exact (stands_exported_iff distinct declared).mpr
          ⟨⟨offered, Bool.eq_false_iff.mpr idle⟩, traced⟩
      · rename_i lost
        have nothing := Option.not_isSome_iff_eq_none.mp lost
        exact ⟨offered, isReexport_of_originOf_eq_none nothing, nothing⟩

/-- A declaration has no other standing than the one that is computed for it. -/
theorem standing_eq_of_stands (distinct : (m.declarations.map (·.name)).Nodup)
    (declared : d ∈ m.declarations) {standing : Standing} (stands : linked.Stands m d standing) :
    linked.standing d = standing := by
  rw [Linked.standing]
  cases standing with
  | hidden => exact if_pos (Tier.isPrivate_iff.mpr stands)
  | broken =>
    obtain ⟨offered, reexport, lost⟩ := stands
    have idle : ¬ linked.pairings.isEntryPoint d = true := fun runs => by
      simp [(fields_of_isEntryPoint runs).2.1] at reexport
    rw [if_neg (mt Tier.isPrivate_iff.mp offered), if_neg idle, lost]
    rfl
  | entryPoint =>
    have runs := (mem_entryPoints_iff declared).mp stands
    have offered : d.tier ≠ .private := by simp [(fields_of_isEntryPoint runs).1]
    rw [if_neg (mt Tier.isPrivate_iff.mp offered), if_pos runs]
  | exported =>
    obtain ⟨⟨offered, idle⟩, traced⟩ := (stands_exported_iff distinct declared).mp stands
    rw [if_neg (mt Tier.isPrivate_iff.mp offered), if_neg (Bool.eq_false_iff.mp idle),
      if_pos traced]

theorem existsUnique_stands (distinct : (m.declarations.map (·.name)).Nodup)
    (declared : d ∈ m.declarations) : ∃! standing, linked.Stands m d standing :=
  ⟨linked.standing d, stands_standing distinct declared,
    fun _ stands => (standing_eq_of_stands distinct declared stands).symm⟩

/-- The names of an export set are those of the declarations that are exported. -/
theorem mem_names_iff (distinct : (m.declarations.map (·.name)).Nodup) {name : String} :
    name ∈ linked.exports.names linked.pairings m ↔
      ∃ d ∈ m.declarations, d.name = name ∧ linked.Stands m d .exported := by
  simp only [Exports.names, Exports.ofModule, List.mem_map, List.mem_filterMap]
  constructor
  · rintro ⟨_, ⟨d, declared, found⟩, rfl⟩
    obtain ⟨offered, o, traced, rfl⟩ := Exports.exportOf_eq_some_iff.mp found
    exact ⟨d, declared, rfl, (stands_exported_iff distinct declared).mpr
      ⟨offered, Option.isSome_iff_exists.mpr ⟨o, traced⟩⟩⟩
  · rintro ⟨d, declared, rfl, stands⟩
    obtain ⟨offered, traced⟩ := (stands_exported_iff distinct declared).mp stands
    obtain ⟨o, traced⟩ := Option.isSome_iff_exists.mp traced
    exact ⟨⟨d.name, d, o⟩,
      ⟨d, declared, Exports.exportOf_eq_some_iff.mpr ⟨offered, o, traced, rfl⟩⟩, rfl⟩

end Linked

namespace Scope.Sound

/-- The modules of a tree have surfaces. -/
theorem surface {scope : Scope} (sound : scope.Sound) {m : Module} (hm : m ∈ scope.tree.modules) :
    Linked.Surface ⟨scope, (Exports.ofScope scope).1⟩ m := by
  obtain ⟨_, -, -, -, sits⟩ := sound.tree.exists_directory hm
  have distinct := sits.distinct
  refine ⟨fun d => Linked.existsUnique_stands distinct, Exports.nodup_names distinct,
    fun name => Linked.mem_names_iff distinct, fun some_listed => ?_, fun d declared reexport => ?_⟩
  · obtain ⟨d, listed⟩ := List.exists_mem_of_ne_nil _ some_listed
    obtain ⟨declared, runs⟩ := List.mem_filter.mp listed
    have paired := (Linked.fields_of_isEntryPoint runs).2.2
    rw [sound.tree.owner_eq hm declared] at paired
    exact (sound.isPairedTest_iff hm).mp paired
  · obtain ⟨-, settled, -⟩ := Reexport.settles_followIn sound.tree (List.Perm.refl _)
    have member : (⟨m, d⟩ : Reexport.Member) ∈ Reexport.members scope.tree :=
      sound.tree.mem_members.mpr ⟨hm, declared, reexport⟩
    have known : d.id ∈ (Reexport.followAll scope).settled.map (·.1) :=
      settled.mem_iff.mpr (List.mem_map.mpr ⟨_, member, rfl⟩)
    obtain ⟨⟨_, o⟩, there, rfl⟩ := List.mem_map.mp known
    exact ⟨o, there⟩

end Scope.Sound

namespace Resolution

/-- Every module of the packages has a surface. The way through the directories, on which re-exports
are followed, leaves no module out and comes to none twice. -/
theorem surface_ofSources (settings : Settings) (sources : List PackageSource) :
    let r := ofSources settings sources
    (r.tree.modules.Nodup ∧ (r.tree.postorder.flatMap (·.listing)).Perm r.tree.modules) ∧
      ∀ m ∈ r.tree.modules, r.toLinked.Surface m := by
  intro r
  have sound : r.toScope.Sound := sound_ofSources settings sources
  exact ⟨⟨sound.tree.nodup_modules, sound.tree.listings_postorder_perm⟩, fun m hm =>
    sound.surface hm⟩

/-- A test with declarations of all standings, and the module that it tests. -/
def surfaceSample : List PackageSource :=
  let store : ModuleSource := ⟨"Store", none, [⟨"get", .public, .function, none, none⟩], []⟩
  let storeTest : ModuleSource := ⟨"StoreTest", none,
    [⟨"helper", .private, .function, none, none⟩,
      ⟨"put", .public, .reexport, some ⟨["Store"], none⟩, none⟩,
      ⟨"checks", .public, .function, none, none⟩,
      ⟨"get", .public, .reexport, some ⟨["Store"], none⟩, none⟩,
      ⟨"fixture", .internal, .function, none, none⟩], []⟩
  [⟨"app", [], ⟨"src", [store], []⟩, some ⟨"test", [storeTest], []⟩⟩]

/-- In the sample `put` is broken, since `Store` has no such declaration; `checks` is run and stays
out of the exports, which are `get`, found in `Store`, and `fixture`. -/
theorem surface_sample :
    let r := ofSources .standard surfaceSample
    ∃ m ∈ r.tree.modules, r.toLinked.Surface m ∧
      r.exports.names r.pairings m = ["get", "fixture"] ∧
        m.declarations.map r.standing = [.hidden, .broken, .entryPoint, .exported, .exported] := by
  intro r
  obtain ⟨m, found, names, standings⟩ : ∃ m, r.tree.module? ⟨1⟩ = some m ∧
      r.exports.names r.pairings m = ["get", "fixture"] ∧
        m.declarations.map r.standing = [.hidden, .broken, .entryPoint, .exported, .exported] := by
    refine ⟨_, rfl, ?_, ?_⟩ <;> decide +kernel
  have hm : m ∈ r.tree.modules := List.mem_of_getElem? found
  exact ⟨m, hm, (surface_ofSources .standard surfaceSample).2 m hm, names, standings⟩

end Resolution

end LetModules
