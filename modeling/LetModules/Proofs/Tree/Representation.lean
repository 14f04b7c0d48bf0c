import LetModules.Proofs.Scope.Region

/-!
How the parts of a tree refer to each other. Ids are places, directories are listed by their parents
and modules by their directories, each once and under its own name, and what lies in one place
agrees on package and root (`ModuleTree.Represented`). Every sound tree is made like this, and so is
the tree after every step of its growth, whether the package was taken or refused.
-/

namespace LetModules

/-- The entries stand at the places that their indices name. -/
def AtPlaces (index : α → Nat) (entries : List α) : Prop :=
  ∀ i a, entries[i]? = some a → index a = i

/-- The directory is a root of its package. -/
structure Directory.IsRoot (tree : ModuleTree) (d : Directory) : Prop where
  parent : d.parent = none
  path : d.path = []
  package : ∃ p, tree.package? d.package = some p ∧ p.root? d.root = some d
  unfolded : d.fold? = none

/-- The directory is listed under its name by its parent, which came before it. -/
structure Directory.ListedBy (tree : ModuleTree) (d above : Directory) : Prop where
  parent : d.parent = some above.id
  found : tree.directory? above.id = some above
  earlier : above.id.index < d.id.index
  listed : above.child? d.name = some d
  path : d.path = above.path ++ [d.name]
  package : d.package = above.package
  root : d.root = above.root

/-- The module is listed by its directory: under its own name, or as the one that folds it. -/
structure Module.ListedBy (tree : ModuleTree) (m : Module) (d : Directory) : Prop where
  found : tree.directory? m.directory = some d
  package : m.package = d.package
  root : m.root = d.root
  listed : (m.folds = false ∧ d.plain? m.name = some m ∧ m.path = d.path ++ [m.name]) ∨
    (m.folds = true ∧ d.fold? = some m ∧ m.name = d.name ∧ m.path = d.path)

/-- The parts of a tree refer to each other as they should. -/
structure ModuleTree.Represented (tree : ModuleTree) : Prop where
  packageIds : AtPlaces (·.id.index) tree.packages
  directoryIds : AtPlaces (·.id.index) tree.directories
  moduleIds : AtPlaces (·.id.index) tree.modules
  declarationIds : AtPlaces (·.id.index) tree.declarations
  /-- The roots of a package are directories, and are its roots. -/
  roots : ∀ p ∈ tree.packages, ∀ root d, p.root? root = some d →
    d ∈ tree.directories ∧ d.IsRoot tree ∧ d.package = p.id ∧ d.root = root
  directories : ∀ d ∈ tree.directories, d.IsRoot tree ∨ ∃ above, d.ListedBy tree above
  modules : ∀ m ∈ tree.modules, ∃ d, m.ListedBy tree d
  /-- A directory lists no others: what it lists under a name names it and has that name. -/
  lists : ∀ d ∈ tree.directories,
    (∀ name child, d.child? name = some child →
      child ∈ tree.directories ∧ child.parent = some d.id ∧ child.name = name) ∧
    (∀ name m, d.plain? name = some m →
      m ∈ tree.modules ∧ m.directory = d.id ∧ m.folds = false ∧ m.name = name) ∧
    ∀ m, d.fold? = some m → m ∈ tree.modules ∧ m.directory = d.id ∧ m.folds = true
  /-- The listings of all directories hold every module once. -/
  once : tree.modules.Nodup ∧ (tree.directories.flatMap (·.listing)).Perm tree.modules
  declarations : ∀ e ∈ tree.declarations, ∃ m ∈ tree.modules,
    tree.module? e.owner = some m ∧ m.declaration? e.name = some e ∧
      ∀ n ∈ tree.modules, e ∈ n.declarations → n = m
  /-- A module declares nothing else. -/
  declares : ∀ m ∈ tree.modules, ∀ name e, m.declaration? name = some e →
    e ∈ tree.declarations ∧ e.owner = m.id ∧ e.name = name
  paths : ∀ m ∈ tree.modules, ∀ n ∈ tree.modules, m.package = n.package → m.root = n.root →
    m.path = n.path → m = n
  production : ∀ package path m, tree.production? package path = some m ↔
    m ∈ tree.modules ∧ m.isProduction = true ∧ m.package = package ∧ m.path = path

theorem Numbered.atPlaces {index : α → Nat} {entries : List α} (h : Numbered index 0 entries) :
    AtPlaces index entries :=
  fun _ _ found => (h.getElem?_eq_some_iff.mp found).2

theorem Numbered.pairwise_lt {index : α → Nat} {start : Nat} {entries : List α}
    (h : Numbered index start entries) : entries.Pairwise fun a b => index a < index b := by
  rw [← List.pairwise_map, h]
  exact List.pairwise_lt_range'

namespace ModuleTree.Sound

variable {tree : ModuleTree} (sound : tree.Sound)

include sound

/-- Ids are handed out to a directory before its children. -/
theorem id_lt_of_mem_children {d child : Directory} (hd : d ∈ tree.directories)
    (hc : child ∈ d.children) : d.id.index < child.id.index := by
  have ordered := sound.numbered.directories.pairwise_lt.sublist (sound.subtree_sublist hd)
  rw [Directory.subtree_eq] at ordered
  exact List.rel_of_pairwise_cons ordered
    (List.mem_flatMap.mpr ⟨child, hc, child.mem_subtree_self⟩)

theorem mem_directories_of_mem_children {d child : Directory} (hd : d ∈ tree.directories)
    (hc : child ∈ d.children) : child ∈ tree.directories :=
  ((sound.mem_subtree_iff hd).mp
    (Directory.mem_subtree_of_child hc child.mem_subtree_self)).1

/-- The roots of a package are what they should be. -/
theorem isRoot_of_root? {p : Package} (hp : p ∈ tree.packages) {root : Root} {d : Directory}
    (found : p.root? root = some d) :
    d ∈ tree.directories ∧ d.IsRoot tree ∧ d.package = p.id ∧ d.root = root := by
  have rootOf := (sound.rooted p hp).rootOf found
  have mem := sound.mem_directories hp found d.mem_subtree_self
  refine ⟨mem, ⟨rootOf.parent, rootOf.path, ⟨p, ?_, ?_⟩, ?_⟩, rootOf.package, rootOf.root⟩
  · exact sound.package?_eq_some_iff.mpr ⟨hp, rootOf.package.symm⟩
  · rw [rootOf.root, found]
  · rw [Directory.fold?, List.find?_eq_none]
    intro m hm
    rw [(sound.shaped d mem).unfolded rootOf.parent m hm]
    exact Bool.false_ne_true

theorem listedBy_of_mem_children {d child : Directory} (hd : d ∈ tree.directories)
    (hc : child ∈ d.children) : child.ListedBy tree d := by
  have shaped := sound.shaped d hd
  exact ⟨shaped.parent child hc, sound.directory?_id hd,
    sound.id_lt_of_mem_children hd hc,
    (Directory.child?_eq_some_iff (sound.distinct d hd)).mpr ⟨hc, rfl⟩, shaped.path child hc,
    shaped.package child hc, shaped.root child hc⟩

/-- Every directory is a root, or listed by its parent. -/
theorem isRoot_or_listedBy {d : Directory} (hd : d ∈ tree.directories) :
    d.IsRoot tree ∨ ∃ above, d.ListedBy tree above := by
  obtain ⟨p, hp, r, -, found, below⟩ := sound.exists_root hd
  rcases Directory.exists_parent below with rfl | ⟨above, hr, hc⟩
  · exact .inl (sound.isRoot_of_root? hp found).2.1
  · exact .inr ⟨above, sound.listedBy_of_mem_children (sound.mem_directories hp found hr) hc⟩

/-- Every module is listed by its directory. -/
theorem exists_listedBy {m : Module} (hm : m ∈ tree.modules) : ∃ d, m.ListedBy tree d := by
  obtain ⟨d, hd, found, here, sits⟩ := sound.exists_directory hm
  have distinct := sound.distinct d hd
  refine ⟨d, found, sits.package, sits.root, ?_⟩
  cases folds : m.folds with
  | false =>
    exact .inl ⟨rfl, (Directory.plain?_eq_some_iff distinct).mpr ⟨⟨here, folds⟩, rfl⟩,
      by simpa [folds] using sits.path⟩
  | true =>
    exact .inr ⟨rfl, (Directory.fold?_eq_some_iff distinct).mpr ⟨here, folds⟩, sits.named folds,
      by simpa [folds] using sits.path⟩

theorem listings_perm : (tree.directories.flatMap (·.listing)).Perm tree.modules := by
  rw [sound.modules]
  exact List.Perm.flatMap_left _ fun d hd => Directory.listing_perm (sound.distinct d hd)

/-- The parts of a sound tree refer to each other as they should. -/
theorem toRepresented : tree.Represented where
  packageIds := sound.packages.atPlaces
  directoryIds := sound.numbered.directories.atPlaces
  moduleIds := sound.numbered_modules.atPlaces
  declarationIds := sound.numbered_declarations.atPlaces
  roots := fun _ hp _ _ found => sound.isRoot_of_root? hp found
  directories := fun _ hd => sound.isRoot_or_listedBy hd
  modules := fun _ hm => sound.exists_listedBy hm
  lists := by
    intro d hd
    have distinct := sound.distinct d hd
    have here : ∀ {m}, m ∈ d.modules → m ∈ tree.modules ∧ m.directory = d.id := fun hm =>
      ⟨sound.mem_modules.mpr ⟨d, hd, hm⟩, (sound.sits hd hm).directory⟩
    refine ⟨fun name child found => ?_, fun name m found => ?_, fun m found => ?_⟩
    · obtain ⟨hc, named⟩ := (Directory.child?_eq_some_iff distinct).mp found
      exact ⟨sound.mem_directories_of_mem_children hd hc, (sound.shaped d hd).parent child hc,
        named⟩
    · obtain ⟨⟨hm, plain⟩, named⟩ := (Directory.plain?_eq_some_iff distinct).mp found
      exact ⟨(here hm).1, (here hm).2, plain, named⟩
    · obtain ⟨hm, folds⟩ := (Directory.fold?_eq_some_iff distinct).mp found
      exact ⟨(here hm).1, (here hm).2, folds⟩
  once := ⟨sound.nodup_modules, sound.listings_perm⟩
  declarations := by
    intro e he
    obtain ⟨m, hm, owner, declared⟩ := sound.exists_owner he
    refine ⟨m, hm, owner, (sound.declaration?_name_eq_some_iff hm).mpr ⟨declared, rfl⟩, ?_⟩
    intro n hn declared'
    exact Option.some.inj ((sound.module?_owner hn declared').symm.trans owner)
  declares := by
    intro m hm name e found
    obtain ⟨declared, named⟩ := (sound.declaration?_name_eq_some_iff hm).mp found
    exact ⟨sound.mem_declarations.mpr ⟨m, hm, declared⟩, sound.owner_eq hm declared, named⟩
  paths := fun _ hm _ hn => sound.module_eq_of_path_eq hm hn
  production := by
    intro package path m
    rw [sound.production?_eq_some_iff, Module.isProduction, decide_eq_true_eq]

end ModuleTree.Sound

/-- Whatever packages are offered to a growing tree, after each of them the parts of the tree refer
to each other as they should. -/
theorem Growth.represented (sources : List PackageSource) :
    (sources.foldl Growth.add .empty).tree.Represented :=
  (sound_ofSources sources).toRepresented

end LetModules
