import LetModules.Proofs.Twin.Shape
import LetModules.Proofs.Twin.Tree

/-!
Packages without their tests. Taking the test roots away changes the ids in the tree, but packages
keep theirs, source roots keep their shape, and the modules that are left have the profiles of the
production modules, in order (`forall₂_twins`).
-/

namespace LetModules

open Directory (modulesOf)

/-- The package without its test root. -/
def PackageSource.untested (source : PackageSource) : PackageSource := { source with test := none }

/-- The packages are taken one after the other, none of them is refused. -/
def Growth.TakesAll (growth : Growth) : List PackageSource → Prop
  | [] => True
  | source :: rest => (growth.added? source).isSome = true ∧ (growth.add source).TakesAll rest

/-- The second package is the first one without tests, under other ids. -/
structure Package.Untested (p q : Package) : Prop where
  id : p.id = q.id
  name : p.name = q.name
  dependencies : p.dependencies = q.dependencies
  source : p.source.SameShape q.source
  profiles : (modulesOf p.source.subtree).map (Module.profile p.name) =
    (modulesOf q.source.subtree).map (Module.profile q.name)
  test : q.test = none

theorem PackageSource.untested_place (id : PackageId) (next next' : NextIds)
    (source : PackageSource) :
    (source.place id next).Untested (source.untested.place id next') where
  id := rfl
  name := rfl
  dependencies := rfl
  source := DirectorySource.sameShape_place _ _ none none rfl [] next next' source.source
  profiles :=
    (DirectorySource.profiles_place ..).trans (DirectorySource.profiles_place ..).symm
  test := rfl

/-- The second tree is the first one without tests, under other ids. -/
structure ModuleTree.Untested (S T : ModuleTree) : Prop where
  soundLeft : S.Sound
  soundRight : T.Sound
  packages : List.Forall₂ Package.Untested S.packages T.packages

namespace ModuleTree.Untested

variable {S T : ModuleTree}

theorem names (h : S.Untested T) : S.packages.map (·.name) = T.packages.map (·.name) :=
  map_eq_of_forall₂ (fun _ _ same => same.name) h.packages

/-- A package that is taken is also taken without its tests, and leaves the trees related. -/
theorem append (h : S.Untested T) {source : PackageSource} (free : S.refusals source = []) :
    T.refusals source.untested = [] ∧ (S.append source).Untested (T.append source.untested) := by
  obtain ⟨fresh, clear⟩ := (S.refusals_eq_nil_iff source).mp free
  have clear' : source.untested.conflicts = [] := by
    refine List.flatMap_eq_nil_iff.mpr fun root hr => ?_
    rw [List.mem_singleton.mp hr]
    exact List.flatMap_eq_nil_iff.mp clear _ List.mem_cons_self
  have free' := (T.refusals_eq_nil_iff source.untested).mpr ⟨h.names ▸ fresh, clear'⟩
  refine ⟨free', h.soundLeft.append free, h.soundRight.append free', ?_⟩
  have place := source.untested_place ⟨S.packages.length⟩ S.nextIds T.nextIds
  rw [ModuleTree.append, ModuleTree.append, ← h.packages.length_eq]
  exact List.rel_append h.packages (.cons place .nil)

end ModuleTree.Untested

namespace Growth

/-- Trees that are related stay so while packages are taken, with and without their tests. -/
theorem untested_foldl : ∀ (sources : List PackageSource) (growth growth' : Growth),
    growth.tree.Untested growth'.tree → growth.TakesAll sources →
      (sources.foldl add growth).tree.Untested
        ((sources.map (·.untested)).foldl add growth').tree
  | [], _, _, h, _ => h
  | source :: rest, growth, growth', h, ⟨taken, others⟩ => by
    have free : growth.tree.refusals source = [] := by simpa [added?] using taken
    obtain ⟨free', appended⟩ := h.append free
    refine untested_foldl rest (growth.add source) (growth'.add source.untested) ?_ others
    rw [add, add, free, free']
    exact appended

/-- Packages that are all taken grow the same tree without their tests, but for the tests. -/
theorem untested_ofSources {sources : List PackageSource} (taken : empty.TakesAll sources) :
    (ofSources sources).tree.Untested (ofSources (sources.map (·.untested))).tree :=
  untested_foldl sources empty empty
    ⟨ModuleTree.sound_empty, ModuleTree.sound_empty, .nil⟩ taken

end Growth

namespace ModuleTree.Sound

variable {tree : ModuleTree} (sound : tree.Sound)

include sound

/-- The production modules are those below the source roots. -/
theorem filter_isProduction : tree.modules.filter (·.isProduction) =
    tree.packages.flatMap fun p => modulesOf p.source.subtree := by
  rw [sound.modules, sound.directories, Package.directoriesOf, modulesOf, List.flatMap_assoc,
    List.filter_flatMap]
  refine List.flatMap_congr fun p hp => ?_
  have kind : ∀ {root r}, p.root? root = some r → ∀ m ∈ modulesOf r.subtree, m.root = root := by
    intro root r found m hm
    obtain ⟨d, hd, hm⟩ := mem_modulesOf.mp hm
    obtain ⟨there, -, kind⟩ := (sound.mem_subtree_root_iff hp found).mp hd
    exact (sound.sits there hm).root.trans kind
  have production : (modulesOf p.source.subtree).filter (·.isProduction) =
      modulesOf p.source.subtree :=
    List.filter_eq_self.mpr fun m hm => decide_eq_true
      (kind (show p.root? .source = some p.source from rfl) m hm)
  have tests : (modulesOf (p.test.toList.flatMap Directory.subtree)).filter (·.isProduction) =
      [] := by
    refine List.filter_eq_nil_iff.mpr fun m hm => ?_
    obtain ⟨d, hd, hm⟩ := mem_modulesOf.mp hm
    obtain ⟨r, hr, hd⟩ := List.mem_flatMap.mp hd
    have found : p.root? .test = some r := Option.mem_toList.mp hr
    have root := kind found m (mem_modulesOf.mpr ⟨d, hd, hm⟩)
    simp [Module.isProduction, root]
  rw [Package.roots, List.flatMap_cons, ← modulesOf, modulesOf_append, List.filter_append,
    production, tests, List.append_nil]

/-- The profiles of the production modules are those below the source roots. -/
theorem map_profileOf_production : (tree.modules.filter (·.isProduction)).map tree.profileOf =
    tree.packages.flatMap fun p => (modulesOf p.source.subtree).map (Module.profile p.name) := by
  rw [sound.filter_isProduction, List.map_flatMap]
  refine List.flatMap_congr fun p hp => List.map_congr_left fun m hm => ?_
  obtain ⟨d, hd, hm⟩ := mem_modulesOf.mp hm
  obtain ⟨there, package, -⟩ :=
    (sound.mem_subtree_root_iff hp (show p.root? .source = some p.source from rfl)).mp hd
  rw [profileOf, (sound.sits there hm).package, package, sound.packageName_of_mem hp]

end ModuleTree.Sound

namespace ModuleTree.Untested

variable {S T : ModuleTree} (h : S.Untested T)

include h

theorem packageName_eq (id : PackageId) : S.packageName id = T.packageName id := by
  rw [packageName, packageName, package?, package?, ← List.getElem?_map, ← List.getElem?_map,
    h.names]

/-- Without tests there are production modules only. -/
theorem isProduction_right {n : Module} (hn : n ∈ T.modules) : n.root = .source := by
  obtain ⟨q, hq, -, found⟩ := h.soundRight.exists_package hn
  obtain ⟨p, -, same⟩ := exists_right_of_forall₂ h.packages.flip q hq
  cases kind : n.root with
  | source => rfl
  | test =>
    rw [kind, Package.root?, same.test] at found
    exact absurd found (by simp)

theorem map_profileOf :
    (S.modules.filter (·.isProduction)).map S.profileOf = T.modules.map T.profileOf := by
  have all : T.modules.filter (·.isProduction) = T.modules :=
    List.filter_eq_self.mpr fun n hn => decide_eq_true (h.isProduction_right hn)
  have listed := h.soundRight.map_profileOf_production
  rw [all] at listed
  rw [h.soundLeft.map_profileOf_production, listed, List.flatMap, List.flatMap,
    map_eq_of_forall₂ (fun _ _ same => same.profiles) h.packages]

/-- The modules without tests are twins of the production modules, in order. -/
theorem forall₂_twins : List.Forall₂ (Twins S T) (S.modules.filter (·.isProduction)) T.modules :=
  forall₂_of_map_eq h.map_profileOf fun _ hm _ hn same =>
    ⟨List.mem_of_mem_filter hm, hn, congrArg Profile.name same⟩

theorem exists_twin {m : Module} (hm : m ∈ S.modules) (root : m.root = .source) :
    ∃ n, Twins S T m n := by
  obtain ⟨n, -, twins⟩ :=
    exists_right_of_forall₂ h.forall₂_twins m (List.mem_filter.mpr ⟨hm, decide_eq_true root⟩)
  exact ⟨n, twins⟩

theorem exists_twin' {n : Module} (hn : n ∈ T.modules) : ∃ m, Twins S T m n := by
  obtain ⟨m, -, twins⟩ := exists_right_of_forall₂ h.forall₂_twins.flip n hn
  exact ⟨m, twins⟩

theorem unique {m n m' n' : Module} (twins : Twins S T m n) (twins' : Twins S T m' n') :
    m = m' ↔ n = n' :=
  twins.unique h.soundLeft h.soundRight twins'

theorem production {m n : Module} (twins : Twins S T m n) :
    m.root = .source ∧ n.root = .source :=
  ⟨twins.root.trans (h.isProduction_right twins.right), h.isProduction_right twins.right⟩

theorem profileOf {m n : Module} (twins : Twins S T m n) : S.profileOf m = T.profileOf n := by
  have mem : S.profileOf m ∈ T.modules.map T.profileOf := by
    rw [← h.map_profileOf]
    exact List.mem_map_of_mem
      (List.mem_filter.mpr ⟨twins.left, decide_eq_true (h.production twins).1⟩)
  obtain ⟨n', hn', same⟩ := List.mem_map.mp mem
  have twins' : Twins S T m n' := ⟨twins.left, hn', congrArg Profile.name same.symm⟩
  rw [← same, (h.unique twins twins').mp rfl]

theorem ownName {m n : Module} (twins : Twins S T m n) : m.name = n.name :=
  congrArg Profile.ownName (h.profileOf twins)

theorem folds {m n : Module} (twins : Twins S T m n) : m.folds = n.folds :=
  congrArg Profile.folds (h.profileOf twins)

/-- Twins are in packages with one id. -/
theorem package {m n : Module} (twins : Twins S T m n) : m.package = n.package := by
  obtain ⟨p, hp, mine, -⟩ := h.soundLeft.exists_package twins.left
  obtain ⟨q, hq, its, -⟩ := h.soundRight.exists_package twins.right
  obtain ⟨p', hp', same⟩ := exists_right_of_forall₂ h.packages.flip q hq
  have name := twins.package
  rw [mine, its, h.soundLeft.packageName_of_mem hp, h.soundRight.packageName_of_mem hq,
    ← same.name] at name
  rw [mine, its, ← same.id, List.inj_on_of_nodup_map h.soundLeft.names hp hp' name]

theorem encloses_iff {m n k l : Module} (twins : Twins S T m n) (twins' : Twins S T k l) :
    m.Encloses k ↔ n.Encloses l := by
  rw [Module.Encloses, Module.Encloses, Module.directoryPath, Module.directoryPath,
    Module.directoryPath, Module.directoryPath, h.package twins, h.package twins', twins.root,
    twins'.root, twins.path, twins'.path, h.folds twins, h.folds twins']

/-- Names stand for the same packages, which have the same dependencies. -/
theorem registry_eq : Registry.ofTree S = Registry.ofTree T := by
  have named : ∀ name, (S.packageNamed? name).map (·.id) = (T.packageNamed? name).map (·.id) := by
    intro name
    have found : Option.Rel Package.Untested (S.packageNamed? name) (T.packageNamed? name) :=
      rel_find? (fun _ _ same => by rw [same.name]) h.packages
    generalize S.packageNamed? name = x at found ⊢
    generalize T.packageNamed? name = y at found ⊢
    cases found with
    | none => rfl
    | some same => exact congrArg some same.id
  have edges : ∀ p q : Package, p.Untested q → Registry.edgesOf S p = Registry.edgesOf T q := by
    intro p q same
    simp only [Registry.edgesOf, named, same.dependencies, same.id]
  have keys : S.packages.map (fun p => (p.name, p.id)) = T.packages.map fun q => (q.name, q.id) :=
    map_eq_of_forall₂ (fun _ _ same => Prod.ext same.name same.id) h.packages
  rw [Registry.ofTree, Registry.ofTree, List.flatMap, List.flatMap, keys,
    map_eq_of_forall₂ edges h.packages]

end ModuleTree.Untested

end LetModules
