import LetModules.Proofs.Scope.Region

/-!
Profiles: what is known of a module without any id. The profiles of a placed package can be read off
its source, and they do not depend on where it was placed (`profile_place`); so the profiles of a
grown tree are those of the accepted packages, in order (`map_profile_ofSources`).
-/

namespace LetModules

open Directory (modulesOf)

/-- What a module is known by: its package, its root and its path. -/
structure ModuleName where
  package : String
  root : Root
  path : List String
  deriving DecidableEq, Repr

/-- What is known of a module. -/
structure Profile where
  name : ModuleName
  folds : Bool
  ownName : String
  file : Option FileId
  imports : List ImportStatement
  headers : List DeclarationHeader
  deriving DecidableEq

/-- What is known of a package: its dependencies and its modules. -/
structure PackageProfile where
  name : String
  dependencies : List String
  modules : List Profile

namespace Module

/-- The declarations without their ids. -/
def headers (m : Module) : List DeclarationHeader := m.declarations.map (·.toDeclarationHeader)

/-- The profile of a module of the package `package`. -/
def profile (package : String) (m : Module) : Profile :=
  ⟨⟨package, m.root, m.path⟩, m.folds, m.name, m.file, m.imports, m.headers⟩

end Module

namespace ModuleSource

/-- The profile of a file in its place. -/
def profile (package : String) (root : Root) (path : List String) (folds : Bool)
    (file : ModuleSource) : Profile :=
  ⟨⟨package, root, path⟩, folds, file.name, file.file, file.imports, file.kept⟩

end ModuleSource

namespace DirectorySource

mutual

/-- The profiles of the files in and below a directory with the path `path`. -/
def profiles (package : String) (root : Root) (isRoot : Bool) (path : List String) :
    DirectorySource → List Profile
  | ⟨name, files, directories⟩ =>
    files.map (fun file => file.profile package root (ownedPath isRoot name path file)
      (foldsInto isRoot name file)) ++ childProfiles package root path directories

/-- The profiles of the files below the sub-directories of `path`. -/
def childProfiles (package : String) (root : Root) (path : List String) :
    List DirectorySource → List Profile
  | [] => []
  | child :: rest =>
    profiles package root false (path ++ [child.name]) child ++
      childProfiles package root path rest

end

theorem childProfiles_eq_flatMap (package : String) (root : Root) (path : List String)
    (directories : List DirectorySource) : childProfiles package root path directories =
      directories.flatMap fun child =>
        child.profiles package root false (path ++ [child.name]) := by
  induction directories with
  | nil => rfl
  | cons child rest ih => rw [childProfiles, ih, List.flatMap_cons]

variable (grounds : Grounds)

mutual

/-- The profiles of a placed directory are those of its source. -/
theorem profiles_place (package : String) (parent : Option DirectoryId) (path : List String)
    (next : NextIds) : ∀ source : DirectorySource,
      (modulesOf (place grounds parent path next source).1.subtree).map (Module.profile package) =
        source.profiles package grounds.root parent.isNone path
  | ⟨name, files, directories⟩ => by
    rw [place, profiles]
    dsimp only
    rw [Directory.subtree_eq, ← List.singleton_append, modulesOf_append, List.map_append,
      profiles_placeChildren package ⟨next.directory⟩ path]
    congr 1
    rw [modulesOf, List.flatMap_singleton]
    refine map_placeFiles grounds _ _ _ _ (fun file next => ?_) _ _
    exact congrArg (Profile.mk _ _ _ _ _) (ModuleSource.headers_place ..)

theorem profiles_placeChildren (package : String) (parent : DirectoryId) (path : List String)
    (next : NextIds) : ∀ sources : List DirectorySource,
      (modulesOf ((placeChildren grounds parent path next sources).1.flatMap
        Directory.subtree)).map (Module.profile package) =
          childProfiles package grounds.root path sources
  | [] => rfl
  | child :: rest => by
    rw [placeChildren, childProfiles]
    dsimp only
    rw [List.flatMap_cons, modulesOf_append, List.map_append,
      profiles_place package (some parent) (path ++ [child.name]) next child,
      profiles_placeChildren package parent path]
    rfl

end

end DirectorySource

/-- The profile of a package in a tree. -/
def Package.profile (p : Package) : PackageProfile where
  name := p.name
  dependencies := p.dependencies
  modules := (modulesOf (p.roots.flatMap Directory.subtree)).map (Module.profile p.name)

namespace PackageSource

/-- The profile of a package before it has a place. -/
def profile (source : PackageSource) : PackageProfile where
  name := source.name
  dependencies := source.dependencies
  modules := source.source.profiles source.name .source true [] ++
    source.test.toList.flatMap fun root => root.profiles source.name .test true []

/-- The profile of a package does not depend on its place. -/
theorem profile_place (id : PackageId) (next : NextIds) (source : PackageSource) :
    (source.place id next).profile = source.profile := by
  rw [Package.profile, profile, Package.roots, List.flatMap_cons, modulesOf_append, List.map_append,
    place]
  dsimp only
  rw [DirectorySource.profiles_place]
  cases source.test with
  | none => rfl
  | some test =>
    simp only [Option.map_some, Option.toList_some, List.flatMap_singleton,
      DirectorySource.profiles_place]
    rfl

end PackageSource

namespace Growth

/-- The packages that are not refused, when those named in `taken` are there before. -/
def accepted (taken : List String) : List PackageSource → List PackageSource
  | [] => []
  | source :: rest =>
    if source.name ∉ taken ∧ source.conflicts = [] then
      source :: accepted (taken ++ [source.name]) rest
    else accepted taken rest

theorem accepted_sublist : ∀ (taken : List String) (sources : List PackageSource),
    (accepted taken sources).Sublist sources
  | _, [] => List.Sublist.refl _
  | taken, source :: rest => by
    rw [accepted]
    split
    · exact (accepted_sublist _ rest).cons_cons source
    · exact (accepted_sublist taken rest).cons source

/-- A tree has the profiles of the packages that were accepted. -/
theorem map_profile_ofSources (sources : List PackageSource) :
    (ofSources sources).tree.packages.map (·.profile) =
      (accepted [] sources).map (·.profile) := by
  have run : ∀ (sources : List PackageSource) (growth : Growth),
      (sources.foldl add growth).tree.packages.map (·.profile) =
        growth.tree.packages.map (·.profile) ++
          (accepted (growth.tree.packages.map (·.name)) sources).map (·.profile) := by
    intro sources
    induction sources with
    | nil => exact fun growth => (List.append_nil _).symm
    | cons source rest ih =>
      intro growth
      rw [List.foldl_cons, ih, accepted]
      cases refused : growth.tree.refusals source with
      | nil =>
        have grown : (growth.add source).tree = growth.tree.append source := by
          rw [add, refused]
        rw [if_pos ((growth.tree.refusals_eq_nil_iff source).mp refused), grown,
          ModuleTree.append]
        simp only [List.map_append, List.map_cons, List.map_nil, PackageSource.profile_place]
        rw [List.append_assoc, List.singleton_append]
        rfl
      | cons problem problems =>
        have kept : (growth.add source).tree = growth.tree := by
          rw [add, refused]
        have out : ¬ (source.name ∉ growth.tree.packages.map (·.name) ∧ source.conflicts = []) := by
          rw [← growth.tree.refusals_eq_nil_iff, refused]
          exact List.cons_ne_nil _ _
        rw [if_neg out, kept]
  exact run sources empty

end Growth

namespace ModuleTree

/-- The name of a module. -/
def nameOf (tree : ModuleTree) (m : Module) : ModuleName :=
  ⟨tree.packageName m.package, m.root, m.path⟩

/-- In messages modules of one name are called the same. -/
theorem displayPath_eq {S T : ModuleTree} {m n : Module} (same : S.nameOf m = T.nameOf n) :
    S.displayPath m = T.displayPath n := by
  simp only [nameOf, ModuleName.mk.injEq] at same
  rw [displayPath, displayPath, Module.pathText, Module.pathText, same.1, same.2.1, same.2.2]

/-- The profile of a module. -/
def profileOf (tree : ModuleTree) (m : Module) : Profile := m.profile (tree.packageName m.package)

namespace Sound

variable {tree : ModuleTree} (sound : tree.Sound)

include sound

theorem packageName_inj {m n : Module} (hm : m ∈ tree.modules) (hn : n ∈ tree.modules)
    (same : tree.packageName m.package = tree.packageName n.package) : m.package = n.package := by
  obtain ⟨p, hp, mine, -⟩ := sound.exists_package hm
  obtain ⟨q, hq, its, -⟩ := sound.exists_package hn
  rw [mine, its, sound.packageName_of_mem hp, sound.packageName_of_mem hq] at same
  rw [mine, its, List.inj_on_of_nodup_map sound.names hp hq same]

/-- A module is told by its name. -/
theorem nameOf_inj {m n : Module} (hm : m ∈ tree.modules) (hn : n ∈ tree.modules)
    (same : tree.nameOf m = tree.nameOf n) : m = n := by
  simp only [nameOf, ModuleName.mk.injEq] at same
  exact sound.module_eq_of_path_eq hm hn (sound.packageName_inj hm hn same.1) same.2.1 same.2.2

/-- The profiles of a tree are those of its packages, in order. -/
theorem map_profileOf : tree.modules.map tree.profileOf =
    (tree.packages.map (·.profile)).flatMap (·.modules) := by
  rw [sound.modules, sound.directories, Package.directoriesOf, modulesOf, List.flatMap_assoc,
    List.map_flatMap, List.flatMap_map]
  refine List.flatMap_congr fun p hp => List.map_congr_left fun m hm => ?_
  obtain ⟨d, hd, hmd⟩ := List.mem_flatMap.mp hm
  obtain ⟨r, hr, below⟩ := List.mem_flatMap.mp hd
  obtain ⟨root, found⟩ := Package.mem_roots.mp hr
  obtain ⟨there, package, -⟩ := (sound.mem_subtree_root_iff hp found).mp below
  rw [profileOf, (sound.sits there hmd).package, package, sound.packageName_of_mem hp]

theorem exists_profileOf_iff {x : Profile} : (∃ m ∈ tree.modules, tree.profileOf m = x) ↔
    ∃ p ∈ tree.packages, x ∈ p.profile.modules := by
  rw [← List.mem_map, sound.map_profileOf, List.flatMap_map, List.mem_flatMap]

end Sound

end ModuleTree

end LetModules
