import LetModules.Proofs.Tree.Descent

/-!
Looking things up in a sound tree. An id leads back to the thing that has it (`module?_eq_some_iff`
and its like), a directory encloses what has its package, its root and a longer path
(`mem_subtree_iff`), and package, root and path together name one module at most
(`module_eq_of_path_eq`).
-/

namespace LetModules

open Directory (modulesOf declarationsOf)

namespace Package

/-- The root of a kind. -/
def root? (p : Package) : Root → Option Directory
  | .source => some p.source
  | .test => p.test

theorem mem_roots {p : Package} {d : Directory} :
    d ∈ p.roots ↔ ∃ root, p.root? root = some d := by
  rw [roots, List.mem_cons, Option.mem_toList]
  constructor
  · rintro (rfl | test)
    · exact ⟨.source, rfl⟩
    · exact ⟨.test, test⟩
  · rintro ⟨_ | _, found⟩
    · exact .inl (Option.some.inj found).symm
    · exact .inr found

theorem Rooted.rootOf {p : Package} (rooted : p.Rooted) {root : Root} {d : Directory}
    (found : p.root? root = some d) : d.RootOf p.id root := by
  cases root with
  | source => exact Option.some.inj found ▸ rooted.source
  | test => exact rooted.test d found

end Package

namespace Module

/-- The path of the directory that a module lies in. -/
def directoryPath (m : Module) : List String := if m.folds then m.path else m.path.dropLast

theorem Sits.directoryPath {m : Module} {d : Directory} (sits : m.Sits d) :
    m.directoryPath = d.path := by
  rw [Module.directoryPath, sits.path]
  split <;> simp

/-- The directory of `m` is that of `other` or lies above it. -/
def Encloses (m other : Module) : Prop :=
  m.package = other.package ∧ m.root = other.root ∧ m.directoryPath <+: other.directoryPath

end Module

namespace Directory

/-- `e` is `d` or lies below it, as far as package, root and path tell. -/
def Encloses (d e : Directory) : Prop :=
  d.package = e.package ∧ d.root = e.root ∧ d.path <+: e.path

end Directory

namespace ModuleTree.Sound

variable {tree : ModuleTree} (sound : tree.Sound)

include sound

theorem package?_eq_some_iff {id : PackageId} {p : Package} :
    tree.package? id = some p ↔ p ∈ tree.packages ∧ p.id = id := by
  rw [package?, sound.packages.getElem?_eq_some_iff]
  cases id; cases h : p.id; simp

theorem directory?_eq_some_iff {id : DirectoryId} {d : Directory} :
    tree.directory? id = some d ↔ d ∈ tree.directories ∧ d.id = id := by
  rw [directory?, sound.numbered.directories.getElem?_eq_some_iff]
  cases id; cases h : d.id; simp

theorem directory?_id {d : Directory} (mem : d ∈ tree.directories) :
    tree.directory? d.id = some d :=
  sound.directory?_eq_some_iff.mpr ⟨mem, rfl⟩

theorem numbered_modules : Numbered (·.id.index) 0 tree.modules :=
  sound.modules ▸ sound.numbered.modules

theorem numbered_declarations : Numbered (·.id.index) 0 tree.declarations :=
  sound.declarations ▸ sound.numbered.declarations

theorem module?_eq_some_iff {id : ModuleId} {m : Module} :
    tree.module? id = some m ↔ m ∈ tree.modules ∧ m.id = id := by
  rw [module?, sound.numbered_modules.getElem?_eq_some_iff]
  cases id; cases h : m.id; simp

theorem module?_id {m : Module} (mem : m ∈ tree.modules) : tree.module? m.id = some m :=
  sound.module?_eq_some_iff.mpr ⟨mem, rfl⟩

theorem package_inj {p q : Package} (hp : p ∈ tree.packages) (hq : q ∈ tree.packages)
    (same : p.id = q.id) : p = q :=
  sound.packages.inj hp hq (congrArg (·.index) same)

theorem module_inj {m n : Module} (hm : m ∈ tree.modules) (hn : n ∈ tree.modules)
    (same : m.id = n.id) : m = n :=
  sound.numbered_modules.inj hm hn (congrArg (·.index) same)

theorem declaration_inj {e f : Declaration} (he : e ∈ tree.declarations)
    (hf : f ∈ tree.declarations) (same : e.id = f.id) : e = f :=
  sound.numbered_declarations.inj he hf (congrArg (·.index) same)

/-- A name stands for one package at most. -/
theorem packageNamed?_eq_some_iff {name : String} {p : Package} :
    tree.packageNamed? name = some p ↔ p ∈ tree.packages ∧ p.name = name :=
  find?_eq_some_iff_of_nodup sound.names

theorem packageName_of_mem {p : Package} (mem : p ∈ tree.packages) :
    tree.packageName p.id = p.name := by
  rw [packageName, sound.package?_eq_some_iff.mpr ⟨mem, rfl⟩]
  rfl

theorem mem_modules {m : Module} :
    m ∈ tree.modules ↔ ∃ d ∈ tree.directories, m ∈ d.modules := by
  rw [sound.modules, mem_modulesOf]

theorem mem_declarations {e : Declaration} :
    e ∈ tree.declarations ↔ ∃ m ∈ tree.modules, e ∈ m.declarations := by
  rw [sound.declarations, sound.modules, declarationsOf, List.mem_flatMap]

theorem sits {d : Directory} (hd : d ∈ tree.directories) {m : Module} (hm : m ∈ d.modules) :
    m.Sits d :=
  (sound.shaped d hd).sits m hm

/-- Every module lies in the directory that it names. -/
theorem exists_directory {m : Module} (mem : m ∈ tree.modules) :
    ∃ d ∈ tree.directories, tree.directory? m.directory = some d ∧ m ∈ d.modules ∧ m.Sits d := by
  obtain ⟨d, hd, hm⟩ := sound.mem_modules.mp mem
  have sits := sound.sits hd hm
  exact ⟨d, hd, sound.directory?_eq_some_iff.mpr ⟨hd, sits.directory.symm⟩, hm, sits⟩

/-- A declaration of a module names that module as its owner. -/
theorem owner_eq {m : Module} (hm : m ∈ tree.modules) {e : Declaration}
    (he : e ∈ m.declarations) : e.owner = m.id := by
  obtain ⟨d, -, -, -, sits⟩ := sound.exists_directory hm
  exact sits.owner e he

theorem module?_owner {m : Module} (hm : m ∈ tree.modules) {e : Declaration}
    (he : e ∈ m.declarations) : tree.module? e.owner = some m := by
  rw [sound.owner_eq hm he, sound.module?_id hm]

/-- Every declaration is one of its owner. -/
theorem exists_owner {e : Declaration} (mem : e ∈ tree.declarations) :
    ∃ m ∈ tree.modules, tree.module? e.owner = some m ∧ e ∈ m.declarations := by
  obtain ⟨m, hm, he⟩ := sound.mem_declarations.mp mem
  exact ⟨m, hm, sound.module?_owner hm he, he⟩

/-- A module declares a name once at most. -/
theorem declaration?_name_eq_some_iff {m : Module} (hm : m ∈ tree.modules) {name : String}
    {e : Declaration} : m.declaration? name = some e ↔ e ∈ m.declarations ∧ e.name = name := by
  obtain ⟨d, -, -, -, sits⟩ := sound.exists_directory hm
  exact find?_eq_some_iff_of_nodup sits.distinct

/-- What lies below the root of a package is in the tree. -/
theorem mem_directories {p : Package} (hp : p ∈ tree.packages) {root : Root} {r d : Directory}
    (hr : p.root? root = some r) (hd : d ∈ r.subtree) : d ∈ tree.directories := by
  rw [sound.directories, Package.directoriesOf, List.mem_flatMap]
  exact ⟨p, hp, List.mem_flatMap.mpr ⟨r, Package.mem_roots.mpr ⟨root, hr⟩, hd⟩⟩

theorem orderly_root {p : Package} (hp : p ∈ tree.packages) {root : Root} {r : Directory}
    (hr : p.root? root = some r) : r.Orderly where
  shaped := fun e he => sound.shaped e (sound.mem_directories hp hr he)
  distinct := fun e he => sound.distinct e (sound.mem_directories hp hr he)

/-- Every directory lies below the root that it names. -/
theorem exists_root {d : Directory} (mem : d ∈ tree.directories) :
    ∃ p ∈ tree.packages, ∃ r, d.package = p.id ∧ p.root? d.root = some r ∧ d ∈ r.subtree := by
  rw [sound.directories, Package.directoriesOf] at mem
  obtain ⟨p, hp, below⟩ := List.mem_flatMap.mp mem
  obtain ⟨r, hr, hd⟩ := List.mem_flatMap.mp below
  obtain ⟨root, found⟩ := Package.mem_roots.mp hr
  have rootOf := (sound.rooted p hp).rootOf found
  obtain ⟨package, kind, -⟩ :=
    Directory.fields_of_mem_subtree (sound.orderly_root hp found) hd
  refine ⟨p, hp, r, package.trans rootOf.package, ?_, hd⟩
  rw [kind, rootOf.root, found]

theorem orderly {d : Directory} (mem : d ∈ tree.directories) : d.Orderly := by
  obtain ⟨p, hp, r, -, hr, hd⟩ := sound.exists_root mem
  exact (sound.orderly_root hp hr).below hd

/-- Every module belongs to a package of the tree. -/
theorem exists_package {m : Module} (mem : m ∈ tree.modules) :
    ∃ p ∈ tree.packages, m.package = p.id ∧ (p.root? m.root).isSome := by
  obtain ⟨d, hd, -, -, sits⟩ := sound.exists_directory mem
  obtain ⟨p, hp, r, package, hr, -⟩ := sound.exists_root hd
  exact ⟨p, hp, sits.package.trans package, by rw [sits.root, hr]; rfl⟩

/-- The directories below a root are those of its package and its kind. -/
theorem mem_subtree_root_iff {p : Package} (hp : p ∈ tree.packages) {root : Root}
    {r d : Directory} (hr : p.root? root = some r) :
    d ∈ r.subtree ↔ d ∈ tree.directories ∧ d.package = p.id ∧ d.root = root := by
  have rootOf := (sound.rooted p hp).rootOf hr
  constructor
  · intro hd
    obtain ⟨package, kind, -⟩ := Directory.fields_of_mem_subtree (sound.orderly_root hp hr) hd
    exact ⟨sound.mem_directories hp hr hd, package.trans rootOf.package, kind.trans rootOf.root⟩
  · rintro ⟨mem, package, kind⟩
    obtain ⟨q, hq, r', package', hr', hd⟩ := sound.exists_root mem
    obtain rfl := sound.package_inj hp hq (package.symm.trans package')
    rw [kind, hr] at hr'
    exact Option.some.inj hr' ▸ hd

/-- A directory encloses exactly what has its package, its root and a longer path. -/
theorem mem_subtree_iff {d e : Directory} (hd : d ∈ tree.directories) :
    e ∈ d.subtree ↔ e ∈ tree.directories ∧ d.Encloses e := by
  obtain ⟨p, hp, r, package, hr, below⟩ := sound.exists_root hd
  have orderly := sound.orderly_root hp hr
  constructor
  · intro he
    obtain ⟨package', kind, path⟩ := Directory.fields_of_mem_subtree (sound.orderly hd) he
    have mem := sound.mem_directories hp hr (Directory.mem_subtree_trans below he)
    exact ⟨mem, package'.symm, kind.symm, path⟩
  · rintro ⟨mem, package', kind, ⟨names, path⟩⟩
    have he : e ∈ r.subtree := (sound.mem_subtree_root_iff hp hr).mpr
      ⟨mem, package'.symm.trans package, kind.symm⟩
    -- the way from the root to `e` leads through `d`
    have root_path : r.path = [] := ((sound.rooted p hp).rootOf hr).path
    have toD : r.descend d.path = some d :=
      (Directory.descend_eq_some_iff orderly).mpr ⟨below, by rw [root_path, List.nil_append]⟩
    have toE : r.descend e.path = some e :=
      (Directory.descend_eq_some_iff orderly).mpr ⟨he, by rw [root_path, List.nil_append]⟩
    rw [← path, Directory.descend_append, toD] at toE
    exact ((Directory.descend_eq_some_iff (sound.orderly hd)).mp toE).1

theorem subtree_sublist {d : Directory} (hd : d ∈ tree.directories) :
    d.subtree.Sublist tree.directories := by
  obtain ⟨p, hp, r, -, hr, below⟩ := sound.exists_root hd
  rw [sound.directories, Package.directoriesOf, List.flatMap_def]
  refine (Directory.subtree_sublist below).trans ?_
  refine .trans ?_ (List.sublist_flatten_of_mem (List.mem_map_of_mem hp))
  rw [List.flatMap_def]
  exact List.sublist_flatten_of_mem (List.mem_map_of_mem (Package.mem_roots.mpr ⟨_, hr⟩))

end ModuleTree.Sound

end LetModules
