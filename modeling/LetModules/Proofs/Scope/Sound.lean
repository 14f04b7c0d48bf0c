import LetModules.Proofs.Pairing
import LetModules.Scope

/-!
The invariant of scopes: a sound tree, the registry of its packages, and pairs of tests with
production modules of their own packages, each of either in one pair at most. Pairing the tests of a
sound tree makes a sound scope (`sound_ofTree`).
-/

namespace LetModules

/-- A test and a production module of one package. -/
structure Pair.Fits (tree : ModuleTree) (pair : Pair) : Prop where
  test : pair.test ∈ tree.modules
  production : pair.production ∈ tree.modules
  isTest : pair.test.root = .test
  isProduction : pair.production.root = .source
  package : pair.production.package = pair.test.package

namespace Scope

/-- What a scope knows hangs together. -/
structure Sound (scope : Scope) : Prop where
  tree : scope.tree.Sound
  registry : scope.registry = .ofTree scope.tree
  pairs : ∀ pair ∈ scope.pairings, pair.Fits scope.tree
  tests : (scope.pairings.map (·.test.id)).Nodup
  productions : (scope.pairings.map (·.production.id)).Nodup

/-- The scope of a tree, with its own registry and pairs. -/
def ofTree (settings : Settings) (tree : ModuleTree) : Scope :=
  ⟨tree, .ofTree tree, (Pairing.ofTree tree settings).pairs⟩

/-- The scope of the tree that grows from packages. -/
def ofSources (settings : Settings) (sources : List PackageSource) : Scope :=
  ofTree settings (Growth.ofSources sources).tree

theorem sound_ofTree (settings : Settings) {tree : ModuleTree} (sound : tree.Sound) :
    (ofTree settings tree).Sound := by
  have settles : Pairing.Settles tree settings _ _ := Pairing.settles_ofTree sound
  refine ⟨sound, rfl, fun pair mem => ?_, ?_, settles.productions⟩
  · obtain ⟨⟨there, isTest⟩, claim, -⟩ := (Pairing.mem_pairs_ofTree_iff sound).mp mem
    obtain ⟨production, root, package⟩ := Pairing.claimed?_fields sound claim
    exact ⟨there, production, isTest, root, package⟩
  · have sorted : (Pairing.tests tree).Perm (tree.modules.filter (·.isTest)) :=
      List.mergeSort_perm ..
    have distinct : ((tree.modules.filter (·.isTest)).map (·.id)).Nodup :=
      sound.nodup_ids.sublist (List.filter_sublist.map _)
    have ids := settles.tests.map (·.id)
    rw [List.map_map] at ids
    exact ids.nodup ((sorted.map _).nodup_iff.mpr distinct)

theorem sound_ofSources (settings : Settings) (sources : List PackageSource) :
    (ofSources settings sources).Sound :=
  sound_ofTree settings (Growth.sound_ofSources sources)

end Scope

namespace Registry

variable {tree : ModuleTree}

/-- In the registry of a tree, a name stands for the package that has it. -/
theorem lookup_ofTree_eq_some_iff (sound : tree.Sound) {name : String} {id : PackageId} :
    (ofTree tree).lookup name = some id ↔ ∃ p ∈ tree.packages, p.name = name ∧ p.id = id := by
  have keys : ((ofTree tree).names.reverse.map (·.1)).Nodup := by
    rw [List.map_reverse, List.nodup_reverse, ofTree, List.map_map]
    exact sound.names
  have found : ∀ entry, (ofTree tree).names.reverse.find? (·.1 = name) = some entry ↔
      (∃ p ∈ tree.packages, (p.name, p.id) = entry) ∧ entry.1 = name := by
    intro entry
    rw [find?_eq_some_iff_of_nodup keys, List.mem_reverse, ofTree, List.mem_map]
  rw [lookup, Option.map_eq_some_iff]
  simp only [found]
  constructor
  · rintro ⟨_, ⟨⟨p, hp, rfl⟩, named⟩, rfl⟩
    exact ⟨p, hp, named, rfl⟩
  · rintro ⟨p, hp, named, rfl⟩
    exact ⟨(p.name, p.id), ⟨⟨p, hp, rfl⟩, named⟩, rfl⟩

/-- In the registry of a tree, a package depends on those that it names. -/
theorem dependsOn_ofTree_iff (sound : tree.Sound) {p q : Package} (hp : p ∈ tree.packages)
    (hq : q ∈ tree.packages) :
    (ofTree tree).dependsOn p.id q.id = true ↔ q.name ∈ p.dependencies := by
  rw [dependsOn, List.contains_iff_mem, ofTree, List.mem_flatMap]
  simp only [edgesOf, List.mem_map, List.mem_eraseDups, List.mem_filterMap, Option.map_eq_some_iff,
    Prod.mk.injEq, sound.packageNamed?_eq_some_iff]
  constructor
  · rintro ⟨p', hp', id, ⟨name, named, q', ⟨hq', rfl⟩, rfl⟩, same, same'⟩
    obtain rfl := sound.package_inj hp' hp same
    obtain rfl := sound.package_inj hq' hq same'
    exact named
  · exact fun named => ⟨p, hp, q.id, ⟨q.name, named, q, ⟨hq, rfl⟩, rfl⟩, rfl, rfl⟩

end Registry

namespace Scope.Sound

variable {scope : Scope} (sound : scope.Sound)

include sound

theorem productionOf_eq_some_iff {t p : Module} (ht : t ∈ scope.tree.modules) :
    scope.pairings.productionOf t.id = some p ↔ ⟨t, p⟩ ∈ scope.pairings := by
  rw [Pairings.productionOf, Option.map_eq_some_iff]
  constructor
  · rintro ⟨pair, found, rfl⟩
    obtain ⟨mem, same⟩ := (find?_eq_some_iff_of_nodup sound.tests).mp found
    exact sound.tree.module_inj (sound.pairs pair mem).test ht same ▸ mem
  · exact fun mem => ⟨_, (find?_eq_some_iff_of_nodup sound.tests).mpr ⟨mem, rfl⟩, rfl⟩

theorem isPairedTest_iff {t : Module} (ht : t ∈ scope.tree.modules) :
    scope.pairings.isPairedTest t.id = true ↔ ∃ p, ⟨t, p⟩ ∈ scope.pairings := by
  simp only [Pairings.isPairedTest, Option.isSome_iff_exists, sound.productionOf_eq_some_iff ht]

theorem isPrivileged_iff {t p : Module} (ht : t ∈ scope.tree.modules)
    (hp : p ∈ scope.tree.modules) :
    scope.pairings.isPrivileged t.id p.id = true ↔ ⟨t, p⟩ ∈ scope.pairings := by
  rw [Pairings.isPrivileged, Option.any_eq_true]
  constructor
  · rintro ⟨q, found, same⟩
    have mem := (sound.productionOf_eq_some_iff ht).mp found
    have known : q = p :=
      sound.tree.module_inj (sound.pairs _ mem).production hp (of_decide_eq_true same)
    exact known ▸ mem
  · exact fun mem => ⟨p, (sound.productionOf_eq_some_iff ht).mpr mem, by simp⟩

end Scope.Sound

end LetModules
