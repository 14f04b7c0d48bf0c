import LetModules.Layout

/-!
The module tree: packages, their directories, the modules in them and what these declare.

Everything has an id, which is its place in the list of its kind. Ids are handed out in layout
order: a directory before its sub-directories, the modules of a directory by file, the declarations
of a module by name. A directory holds its modules and sub-directories themselves, so walks down
the tree follow the data; the way up is by ids.

A module named like its directory *folds* the directory: it answers for the directory outside of it
and has the directory's path. Roots are never folded.
-/

namespace LetModules

/-- The place of a package. -/
structure PackageId where
  index : Nat
  deriving DecidableEq, Repr

/-- The place of a directory. -/
structure DirectoryId where
  index : Nat
  deriving DecidableEq, Repr

/-- The place of a module. -/
structure ModuleId where
  index : Nat
  deriving DecidableEq, Repr

/-- The place of a declaration. -/
structure DeclarationId where
  index : Nat
  deriving DecidableEq, Repr

/-- The root below which a directory lies: production sources or tests. -/
inductive Root where
  | source
  | test
  deriving DecidableEq, Repr

/-- A declaration of a module. -/
structure Declaration extends DeclarationHeader where
  id : DeclarationId
  owner : ModuleId
  deriving DecidableEq, Repr

namespace Declaration

def isReexport (declaration : Declaration) : Bool := declaration.kind = .reexport

end Declaration

/-- A module: one source file in its place. -/
structure Module where
  id : ModuleId
  name : String
  /-- The segments that name it within its package. -/
  path : List String
  directory : DirectoryId
  package : PackageId
  root : Root
  /-- It folds its directory. -/
  folds : Bool
  declarations : List Declaration
  imports : List ImportStatement
  file : Option FileId
  deriving DecidableEq, Repr

namespace Module

/-- A module below the source root of its package. -/
def isProduction (module : Module) : Bool := module.root = .source

/-- A module below the test root of its package. -/
def isTest (module : Module) : Bool := module.root = .test

/-- The path within the package as text. -/
def pathText (module : Module) : String := Text.joined module.path

/-- The declaration of a name. -/
def declaration? (module : Module) (name : String) : Option Declaration :=
  module.declarations.find? (·.name = name)

end Module

/-- A directory with its modules, in file order, and its sub-directories. -/
structure Directory where
  id : DirectoryId
  name : String
  parent : Option DirectoryId
  package : PackageId
  root : Root
  path : List String
  modules : List Module
  children : List Directory
  deriving Repr

namespace Directory

/-- The modules that do not fold the directory. -/
def plain (directory : Directory) : List Module := directory.modules.filter (!·.folds)

/-- The module that folds the directory. -/
def fold? (directory : Directory) : Option Module := directory.modules.find? (·.folds)

/-- The plain modules, and last the folding one. -/
def listing (directory : Directory) : List Module := directory.plain ++ directory.fold?.toList

/-- The plain module of a name. -/
def plain? (directory : Directory) (name : String) : Option Module :=
  directory.plain.find? (·.name = name)

/-- The sub-directory of a name. -/
def child? (directory : Directory) (name : String) : Option Directory :=
  directory.children.find? (·.name = name)

mutual

/-- The directory and all below it, each before its sub-directories. -/
def subtree : Directory → List Directory
  | ⟨id, name, parent, package, root, path, modules, children⟩ =>
    ⟨id, name, parent, package, root, path, modules, children⟩ :: subtrees children

/-- The directories of several subtrees, one after the other. -/
def subtrees : List Directory → List Directory
  | [] => []
  | directory :: rest => subtree directory ++ subtrees rest

end

mutual

/-- The directory and all below it, each after its sub-directories. -/
def postorder : Directory → List Directory
  | ⟨id, name, parent, package, root, path, modules, children⟩ =>
    postorders children ++ [⟨id, name, parent, package, root, path, modules, children⟩]

/-- The directories of several subtrees in post-order, one after the other. -/
def postorders : List Directory → List Directory
  | [] => []
  | directory :: rest => postorder directory ++ postorders rest

end

end Directory

/-- A package with its roots. -/
structure Package where
  id : PackageId
  name : String
  /-- The names of the packages it declares a dependency on. -/
  dependencies : List String
  source : Directory
  test : Option Directory
  deriving Repr

namespace Package

/-- The source root, and the test root if there is one. -/
def roots (package : Package) : List Directory := package.source :: package.test.toList

end Package

/-- All packages with all that lies in them. -/
structure ModuleTree where
  packages : List Package
  directories : List Directory
  modules : List Module
  declarations : List Declaration
  deriving Repr

namespace ModuleTree

/-- The tree without packages. -/
def empty : ModuleTree := ⟨[], [], [], []⟩

def package? (tree : ModuleTree) (id : PackageId) : Option Package := tree.packages[id.index]?

def directory? (tree : ModuleTree) (id : DirectoryId) : Option Directory :=
  tree.directories[id.index]?

def module? (tree : ModuleTree) (id : ModuleId) : Option Module := tree.modules[id.index]?

def declaration? (tree : ModuleTree) (id : DeclarationId) : Option Declaration :=
  tree.declarations[id.index]?

/-- The package of a name. -/
def packageNamed? (tree : ModuleTree) (name : String) : Option Package :=
  tree.packages.find? (·.name = name)

/-- The name of a package, empty for an id that was never handed out. -/
def packageName (tree : ModuleTree) (id : PackageId) : String :=
  ((tree.package? id).map (·.name)).getD ""

/-- The name of a module in messages: `package::A::B`, or `package[test]::A::B` for a test. -/
def displayPath (tree : ModuleTree) (module : Module) : String :=
  let package := tree.packageName module.package
  match module.root with
  | .source => package ++ "::" ++ module.pathText
  | .test => package ++ "[test]::" ++ module.pathText

/-- The production module of a package with a given path. -/
def production? (tree : ModuleTree) (package : PackageId) (path : List String) : Option Module :=
  tree.modules.find? fun m => m.isProduction && m.package = package && m.path = path

/-- The directory is `ancestor` or lies below it. -/
def isWithin (tree : ModuleTree) (directory ancestor : DirectoryId) : Bool :=
  match tree.directory? ancestor with
  | some found => found.subtree.any (·.id = directory)
  | none => false

/-- The directories of all packages, each after its sub-directories. -/
def postorder (tree : ModuleTree) : List Directory :=
  tree.packages.flatMap fun package => package.roots.flatMap Directory.postorder

end ModuleTree

end LetModules
