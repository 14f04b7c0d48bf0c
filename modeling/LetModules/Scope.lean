import LetModules.Pairing
import LetModules.Registry

/-!
Finding the module that a path names, as seen from the module that writes it.

* A path of one segment is *short*: it reaches the modules in the writer's directory and below, a
  folding one by the name of the directory that it folds. A paired test also reaches those in and
  below the directory of the module it tests.
* A longer path is *full*: it starts at the root of the writer's package (for a test, at the test
  root first), or, if its first segment stands for a package that the writer's package depends on,
  at the source root of that package.

A folded directory is reached under its own name, as the module that folds it.
-/

namespace LetModules

/-- What lookups consult. -/
structure Scope where
  tree : ModuleTree
  registry : Registry
  pairings : Pairings
  deriving Repr

namespace Directory

/-- The module that folds the directory, if the directory has the name. -/
def foldNamed? (directory : Directory) (name : String) : Option Module :=
  if directory.name = name then directory.fold? else none

mutual

/-- What a search for a name meets in a directory and below it: the plain module of the name, and
for each sub-directory first the module that folds it, if it has the name. -/
def namedBelow (name : String) : Directory → List Module
  | ⟨id, own, parent, package, root, path, modules, children⟩ =>
    (plain? ⟨id, own, parent, package, root, path, modules, children⟩ name).toList
      ++ namedBelows name children

/-- What a search for a name meets in several sub-directories, one after the other. -/
def namedBelows (name : String) : List Directory → List Module
  | [] => []
  | child :: rest =>
    (child.foldNamed? name).toList ++ namedBelow name child ++ namedBelows name rest

end

/-- The modules of a name in the directory or below it. The one that folds the directory itself is
met before all others. -/
def modulesNamed (directory : Directory) (name : String) : List Module :=
  (directory.foldNamed? name).toList ++ namedBelow name directory

/-- Why a path leads nowhere: the segment that is missing, and perhaps a hint. -/
structure Miss where
  segment : String
  hint : Option PathHint
  deriving DecidableEq, Repr

/-- The module that the last segment of a path names in the directory that the others lead to: a
plain module, or the one that folds a sub-directory of that name. -/
def arrive (directory : Directory) (name : String) : Except Miss Module :=
  match directory.plain? name with
  | some module => .ok module
  | none =>
    match directory.child? name with
    | none => .error ⟨name, none⟩
    | some child =>
      match child.fold? with
      | some module => .ok module
      | none => .error ⟨name, some (.notFolded (Text.joined child.path))⟩

/-- The module at the end of a path that starts in the directory. -/
def walk (directory : Directory) : List String → Except Miss Module
  | [] => .error ⟨"", none⟩
  | [name] => directory.arrive name
  | name :: next :: rest =>
    match directory.child? name with
    | none => .error ⟨name, none⟩
    | some child => child.walk (next :: rest)

end Directory

namespace Scope

/-- The directories from which a short path is looked up. -/
def anchors (scope : Scope) (importer : Module) : List Directory :=
  let ids :=
    importer.directory :: ((scope.pairings.productionOf importer.id).map (·.directory)).toList
  ids.filterMap scope.tree.directory?

/-- The modules that a bare name reaches, each once. -/
def inScope (scope : Scope) (name : String) (importer : Module) : List Module :=
  ((scope.anchors importer).flatMap (·.modulesNamed name)).eraseDups

/-- The production modules of a package with a given name. -/
def candidates (scope : Scope) (package : PackageId) (name : String) : List Module :=
  scope.tree.modules.filter fun m => m.package = package && m.isProduction && m.name = name

/-- The one module that a bare name reaches. -/
def locateShort (scope : Scope) (name : String) (importer : Module) : Except Cause Module :=
  match scope.inScope name importer with
  | [module] => .ok module
  | [] =>
    .error (.notInScope name (scope.tree.displayPath importer)
      ((scope.candidates importer.package name).map (·.pathText)))
  | several =>
    .error (.notInScope name (scope.tree.displayPath importer) (several.map (·.pathText)))

/-- The roots of its own package from which a module looks up a full path, in order. -/
def ownRoots (scope : Scope) (importer : Module) : List Directory :=
  match scope.tree.package? importer.package with
  | none => []
  | some package =>
    match importer.root with
    | .source => [package.source]
    | .test => package.test.toList ++ [package.source]

/-- The first module that a walk from one of the roots finds, or what the first walk missed. -/
def walkFirst (segments : List String) : List Directory → Except Directory.Miss Module
  | [] => .error ⟨"", none⟩
  | root :: rest =>
    match root.walk segments with
    | .ok module => .ok module
    | .error miss =>
      match rest with
      | [] => .error miss
      | _ =>
        match walkFirst segments rest with
        | .ok module => .ok module
        | .error _ => .error miss

/-- The production module of a package whose path properly ends in the segments, if it is the only
one. -/
def completion? (scope : Scope) (package : PackageId) (segments : List String) : Option Module :=
  let fitting := scope.tree.modules.filter fun m =>
    m.package = package && m.isProduction && segments.length < m.path.length &&
      segments.isSuffixOf m.path
  match fitting with
  | [module] => some module
  | _ => none

/-- The cause to report when the segments were missed in a package. -/
def missed (scope : Scope) (path : ModulePath) (package : PackageId) (segments : List String)
    (miss : Directory.Miss) : Cause :=
  let completion := (scope.completion? package segments).map fun m => PathHint.didYouMean m.pathText
  .pathNotFound path.display miss.segment (miss.hint.or completion)

/-- The package other than the importer's for which a name stands. -/
def otherPackage? (scope : Scope) (name : String) (importer : Module) : Option PackageId :=
  (scope.registry.lookup name).filter (· ≠ importer.package)

/-- The module at the end of a full path whose first segment is `first`. -/
def locateFull (scope : Scope) (path : ModulePath) (first : String) (rest : List String)
    (importer : Module) : Except Cause Module :=
  match walkFirst (first :: rest) (scope.ownRoots importer) with
  | .ok module => .ok module
  | .error miss =>
    match scope.otherPackage? first importer with
    | none => .error (scope.missed path importer.package (first :: rest) miss)
    | some package =>
      if scope.registry.dependsOn importer.package package then
        match walkFirst rest ((scope.tree.package? package).map (·.source)).toList with
        | .ok module => .ok module
        | .error miss => .error (scope.missed path package rest miss)
      else .error (.pathNotFound path.display first (some (.notADependency first)))

/-- The module that a path names when `importer` writes it. -/
def locate (scope : Scope) (path : ModulePath) (importer : Module) : Except Cause Module :=
  match path.segments with
  | [] => .error (.pathNotFound path.display "" none)
  | [name] => scope.locateShort name importer
  | first :: rest => scope.locateFull path first rest importer

end Scope

end LetModules
