import LetModules.Proofs.Tree.Distinct

/-!
The invariant of module trees. `ModuleTree.Sound` says how the lists of a tree hang together: ids
are places, the directories are those below the roots of the packages, everything is where it says
that it is, and names are unambiguous. The empty tree is sound, a package that is not refused keeps
it so, and hence every grown tree is sound (`sound_ofSources`).
-/

namespace LetModules

open Directory (modulesOf declarationsOf)

/-- A directory is the root of a kind in a package. -/
structure Directory.RootOf (d : Directory) (package : PackageId) (root : Root) : Prop where
  parent : d.parent = none
  package : d.package = package
  root : d.root = root
  path : d.path = []

/-- The roots of a package say that they are its roots. -/
structure Package.Rooted (p : Package) : Prop where
  source : p.source.RootOf p.id .source
  test : ∀ root, p.test = some root → root.RootOf p.id .test

/-- What lies in the packages of a tree, roots first. -/
def Package.directoriesOf (packages : List Package) : List Directory :=
  packages.flatMap fun p => p.roots.flatMap Directory.subtree

/-- The lists of a tree hang together. -/
structure ModuleTree.Sound (tree : ModuleTree) : Prop where
  packages : Numbered (·.id.index) 0 tree.packages
  names : (tree.packages.map (·.name)).Nodup
  directories : tree.directories = Package.directoriesOf tree.packages
  modules : tree.modules = modulesOf tree.directories
  declarations : tree.declarations = declarationsOf tree.directories
  numbered : Consecutive ⟨0, 0, 0⟩ tree.directories
  rooted : ∀ p ∈ tree.packages, p.Rooted
  shaped : ∀ d ∈ tree.directories, d.Shaped
  distinct : ∀ d ∈ tree.directories, d.Distinct

namespace PackageSource

variable (id : PackageId) (next : NextIds) (source : PackageSource)

theorem rooted_place : (source.place id next).Rooted where
  source := by
    obtain ⟨-, -, parent, package, root, path⟩ :=
      DirectorySource.place_fields ⟨id, .source⟩ none [] next source.source
    exact ⟨parent, package, root, path⟩
  test := by
    intro d hd
    obtain ⟨test, -, rfl⟩ := Option.map_eq_some_iff.mp hd
    obtain ⟨-, -, parent, package, root, path⟩ := DirectorySource.place_fields ⟨id, .test⟩ none []
      (source.source.place ⟨id, .source⟩ none [] next).2 test
    exact ⟨parent, package, root, path⟩

/-- The ids of what lies in a placed package follow each other. -/
theorem consecutive_place :
    Consecutive next ((source.place id next).roots.flatMap Directory.subtree) := by
  obtain ⟨first, after⟩ :=
    DirectorySource.consecutive_place ⟨id, .source⟩ none [] next source.source
  rw [Package.roots, List.flatMap_cons, place]
  cases source.test with
  | none => simpa using first
  | some test =>
    have second := (DirectorySource.consecutive_place ⟨id, .test⟩ none []
      (source.source.place ⟨id, .source⟩ none [] next).2 test).1
    refine first.append ?_
    rw [← after]
    simpa using second

/-- The directories of a placed package lie below its placed roots. -/
theorem mem_directories_place {d : Directory}
    (mem : d ∈ (source.place id next).roots.flatMap Directory.subtree) :
    ∃ root ∈ source.roots, ∃ grounds next, d ∈ (root.place grounds none [] next).1.subtree := by
  obtain ⟨placed, hp, hd⟩ := List.mem_flatMap.mp mem
  rcases List.mem_cons.mp hp with rfl | hp
  · exact ⟨_, List.mem_cons_self, _, _, hd⟩
  · obtain ⟨test, ht, rfl⟩ := Option.map_eq_some_iff.mp (Option.mem_toList.mp hp)
    exact ⟨test, List.mem_cons_of_mem _ (Option.mem_toList.mpr ht), _, _, hd⟩

theorem shaped_of_mem_place {d : Directory}
    (mem : d ∈ (source.place id next).roots.flatMap Directory.subtree) : d.Shaped := by
  obtain ⟨_, _, _, _, hd⟩ := mem_directories_place id next source mem
  exact DirectorySource.shaped_of_mem_place _ d hd

theorem distinct_of_mem_place (free : source.conflicts = []) {d : Directory}
    (mem : d ∈ (source.place id next).roots.flatMap Directory.subtree) : d.Distinct := by
  obtain ⟨root, hr, _, _, hd⟩ := mem_directories_place id next source mem
  have rootFree : DirectorySource.conflicts (none : Option DirectoryId).isNone [] root = [] :=
    List.flatMap_eq_nil_iff.mp free root hr
  exact DirectorySource.distinct_of_conflicts_eq_nil _ rootFree d hd

end PackageSource

namespace ModuleTree

theorem sound_empty : ModuleTree.empty.Sound where
  packages := .nil
  names := List.nodup_nil
  directories := rfl
  modules := rfl
  declarations := rfl
  numbered := .nil _
  rooted := fun _ absent => absurd absent List.not_mem_nil
  shaped := fun _ absent => absurd absent List.not_mem_nil
  distinct := fun _ absent => absurd absent List.not_mem_nil

/-- A package is not refused if its name is free and its layout has no conflicts. -/
theorem refusals_eq_nil_iff (tree : ModuleTree) (source : PackageSource) :
    tree.refusals source = [] ↔
      source.name ∉ tree.packages.map (·.name) ∧ source.conflicts = [] := by
  have named : (tree.packageNamed? source.name).isSome = true ↔
      source.name ∈ tree.packages.map (·.name) := by
    simp [packageNamed?]
  rw [refusals]
  by_cases taken : source.name ∈ tree.packages.map (·.name)
  · simp [named.mpr taken, taken]
  · have free : (tree.packageNamed? source.name).isSome ≠ true := fun h => taken (named.mp h)
    rw [if_neg free]
    simp only [taken, not_false_eq_true, true_and]

theorem nextIds_eq_after {tree : ModuleTree} (sound : tree.Sound) :
    tree.nextIds = (⟨0, 0, 0⟩ : NextIds).after tree.directories := by
  simp [nextIds, NextIds.after, sound.modules, sound.declarations]

/-- A package that is not refused keeps a tree sound. -/
theorem Sound.append {tree : ModuleTree} (sound : tree.Sound) {source : PackageSource}
    (accepted : tree.refusals source = []) : (tree.append source).Sound := by
  obtain ⟨free, clear⟩ := (tree.refusals_eq_nil_iff source).mp accepted
  have numbered := source.consecutive_place ⟨tree.packages.length⟩ tree.nextIds
  constructor
  case packages =>
    exact sound.packages.append (.cons (Nat.zero_add _).symm .nil)
  case names =>
    rw [ModuleTree.append, List.map_append, List.map_singleton]
    exact (List.perm_append_singleton _ _).nodup_iff.mpr (List.nodup_cons.mpr ⟨free, sound.names⟩)
  case directories =>
    simp [ModuleTree.append, sound.directories, Package.directoriesOf]
  case modules =>
    simp [ModuleTree.append, sound.modules, modulesOf]
  case declarations =>
    simp [ModuleTree.append, sound.declarations, declarationsOf, modulesOf]
  case numbered =>
    exact sound.numbered.append (nextIds_eq_after sound ▸ numbered)
  case rooted =>
    intro p hp
    rcases List.mem_append.mp hp with hp | hp
    · exact sound.rooted p hp
    · rw [List.mem_singleton.mp hp]
      exact source.rooted_place _ _
  case shaped =>
    intro d hd
    rcases List.mem_append.mp hd with hd | hd
    · exact sound.shaped d hd
    · exact source.shaped_of_mem_place _ _ hd
  case distinct =>
    intro d hd
    rcases List.mem_append.mp hd with hd | hd
    · exact sound.distinct d hd
    · exact source.distinct_of_mem_place _ _ clear hd

end ModuleTree

namespace Growth

theorem sound_add {growth : Growth} (sound : growth.tree.Sound) (source : PackageSource) :
    (growth.add source).tree.Sound := by
  rw [add]
  split
  · exact sound.append ‹_›
  · exact sound

/-- Every tree that grows from packages is sound, whether they are accepted or not. -/
theorem sound_ofSources (sources : List PackageSource) : (ofSources sources).tree.Sound := by
  have run : ∀ (sources : List PackageSource) (growth : Growth), growth.tree.Sound →
      (sources.foldl add growth).tree.Sound := by
    intro sources
    induction sources with
    | nil => exact fun _ sound => sound
    | cons source rest ih => exact fun growth sound => ih _ (sound_add sound source)
  exact run sources empty ModuleTree.sound_empty

end Growth

end LetModules
