import LetModules.Tree
import LetModules.Tree.Conflict

/-!
Growing a module tree, one package at a time. A package is refused, and the tree left as it was, if
its name is taken or its layout is in conflict with itself; otherwise its directories, modules and
declarations are appended.
-/

namespace LetModules

/-- The ids that come next. -/
structure NextIds where
  directory : Nat
  module : Nat
  declaration : Nat
  deriving Repr

/-- What the whole content of a root has in common. -/
structure Grounds where
  package : PackageId
  root : Root
  deriving Repr

namespace ModuleSource

/-- The file as a module of the directory `directory`. -/
def place (grounds : Grounds) (directory : DirectoryId) (path : List String) (folds : Bool)
    (next : NextIds) (file : ModuleSource) : Module where
  id := ⟨next.module⟩
  name := file.name
  path := path
  directory := directory
  package := grounds.package
  root := grounds.root
  folds := folds
  declarations := file.kept.zipIdx.map fun (header, i) =>
    { header with id := ⟨next.declaration + i⟩, owner := ⟨next.module⟩ }
  imports := file.imports
  file := file.file

end ModuleSource

namespace NextIds

/-- The ids that come after a module. -/
def afterModule (next : NextIds) (module : Module) : NextIds :=
  { next with
    module := next.module + 1
    declaration := next.declaration + module.declarations.length }

end NextIds

namespace DirectorySource

/-- The files of the directory `name` as modules, and the ids that come after them. -/
def placeFiles (grounds : Grounds) (isRoot : Bool) (name : String) (directory : DirectoryId)
    (path : List String) (next : NextIds) : List ModuleSource → List Module × NextIds
  | [] => ([], next)
  | file :: rest =>
    let module :=
      file.place grounds directory (ownedPath isRoot name path file) (foldsInto isRoot name file)
        next
    let placed := placeFiles grounds isRoot name directory path (next.afterModule module) rest
    (module :: placed.1, placed.2)

mutual

/-- A directory in its place, and the ids that come after its content. -/
def place (grounds : Grounds) (parent : Option DirectoryId) (path : List String) (next : NextIds) :
    DirectorySource → Directory × NextIds
  | ⟨name, files, directories⟩ =>
    let id : DirectoryId := ⟨next.directory⟩
    let modules := placeFiles grounds parent.isNone name id path
      { next with directory := next.directory + 1 } files
    let children := placeChildren grounds id path modules.2 directories
    (⟨id, name, parent, grounds.package, grounds.root, path, modules.1, children.1⟩, children.2)

/-- The sub-directories of `parent` in their places, and the ids that come after them. -/
def placeChildren (grounds : Grounds) (parent : DirectoryId) (path : List String) (next : NextIds) :
    List DirectorySource → List Directory × NextIds
  | [] => ([], next)
  | child :: rest =>
    let first := place grounds (some parent) (path ++ [child.name]) next child
    let others := placeChildren grounds parent path first.2 rest
    (first.1 :: others.1, others.2)

end

end DirectorySource

namespace PackageSource

/-- The package in its place. -/
def place (id : PackageId) (next : NextIds) (package : PackageSource) : Package :=
  let source := package.source.place ⟨id, .source⟩ none [] next
  { id := id
    name := package.name
    dependencies := package.dependencies
    source := source.1
    test := package.test.map fun root => (root.place ⟨id, .test⟩ none [] source.2).1 }

end PackageSource

namespace ModuleTree

/-- The ids that come after those of the tree. -/
def nextIds (tree : ModuleTree) : NextIds :=
  ⟨tree.directories.length, tree.modules.length, tree.declarations.length⟩

/-- The tree with a package appended. -/
def append (tree : ModuleTree) (source : PackageSource) : ModuleTree :=
  let package := source.place ⟨tree.packages.length⟩ tree.nextIds
  let directories := package.roots.flatMap Directory.subtree
  let modules := directories.flatMap (·.modules)
  { packages := tree.packages ++ [package]
    directories := tree.directories ++ directories
    modules := tree.modules ++ modules
    declarations := tree.declarations ++ modules.flatMap (·.declarations) }

/-- The reasons for which a package cannot join the tree. A taken name is the only one given. -/
def refusals (tree : ModuleTree) (source : PackageSource) : List Problem :=
  if (tree.packageNamed? source.name).isSome then [.of (.duplicatePackage source.name)]
  else source.conflicts

/-- The problem of each dependency that names no package of the tree. -/
def unknownPackages (tree : ModuleTree) : List Problem :=
  tree.packages.flatMap fun package =>
    (package.dependencies.filter fun name => (tree.packageNamed? name).isNone).map fun name =>
      .of (.unknownPackage name package.name)

end ModuleTree

/-- A tree and the problems met while it grew. -/
structure Growth where
  tree : ModuleTree
  problems : List Problem
  deriving Repr

namespace Growth

def empty : Growth := ⟨.empty, []⟩

/-- Adds a package, or refuses it. -/
def add (growth : Growth) (source : PackageSource) : Growth :=
  match growth.tree.refusals source with
  | [] => ⟨growth.tree.append source, growth.problems ++ source.redeclarations⟩
  | refusals => { growth with problems := growth.problems ++ refusals }

/-- The id that `add` gives to a package, if it takes it. -/
def added? (growth : Growth) (source : PackageSource) : Option PackageId :=
  if (growth.tree.refusals source).isEmpty then some ⟨growth.tree.packages.length⟩ else none

/-- The growth once all packages are there: dependencies that are missing now stay missing. -/
def finish (growth : Growth) : Growth :=
  { growth with problems := growth.problems ++ growth.tree.unknownPackages }

/-- The tree of a list of packages. -/
def ofSources (sources : List PackageSource) : Growth := (sources.foldl add empty).finish

end Growth

end LetModules
