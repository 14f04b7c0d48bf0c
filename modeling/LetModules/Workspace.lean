import LetModules.Loading
import LetModules.Resolution

/-!
A workspace: packages that are loaded and resolved together. One set of settings governs the
resolution of all of them. A module is addressed by `package::A::B`, or by `A::B` inside a package
that is named beside it.
-/

namespace LetModules

/-- The registered files, the packages they belong to, and what resolving these found out. -/
structure Workspace where
  sources : Sources
  packages : List LoadedPackage
  resolution : Resolution

/-- Why an address leads to no module. -/
inductive AddressProblem where
  | withoutPackage (address : String)
  | unknownPackage (name : String)
  | unknownModule (path : List String) (package : String)
  deriving DecidableEq, Repr

namespace AddressProblem

/-- The problem in words. -/
def text : AddressProblem → String
  | .withoutPackage address =>
    s!"module path `{address}` needs a package: write `package::{address}` or pass --package"
  | .unknownPackage name => s!"package `{name}` is not loaded"
  | .unknownModule path package =>
    s!"module `{Text.joined path}` not found in package `{package}`"

end AddressProblem

namespace Workspace

/-- Resolves loaded packages together. -/
def ofPackages (settings : Settings) (sources : Sources) (packages : List LoadedPackage) :
    Workspace :=
  ⟨sources, packages, .ofSources settings (packages.map (·.toSource))⟩

/-- Loads the packages in the given directories and resolves them together. -/
def load (disk : Disk) (settings : Settings) (directories : List String) :
    Except LoadFailure Workspace :=
  (disk.loadPackages settings directories).map fun (packages, sources) =>
    ofPackages settings sources packages

/-- What the outlines of all files complain about. -/
def syntaxDiagnostics (workspace : Workspace) : List Diagnostic :=
  workspace.packages.flatMap (·.diagnostics)

/-- The complaints about syntax, and after them those of the resolution. -/
def diagnostics (workspace : Workspace) : List Diagnostic :=
  workspace.syntaxDiagnostics ++ workspace.resolution.diagnostics

/-- The package name and the path that an address names. -/
def splitAddress (address : String) (package : Option String) :
    Except AddressProblem (String × List String) :=
  match package, Text.trimmedSegments address with
  | some name, segments => .ok (name, segments)
  | none, name :: segment :: segments => .ok (name, segment :: segments)
  | none, _ => .error (.withoutPackage address)

/-- The module at an address. A test module is found only where there is no production module. -/
def findModule (workspace : Workspace) (address : String) (package : Option String) :
    Except AddressProblem Module := do
  let (name, path) ← splitAddress address package
  let tree := workspace.resolution.tree
  match tree.packageNamed? name with
  | none => .error (.unknownPackage name)
  | some found =>
    let test? := tree.modules.find? fun m => m.package = found.id && m.isTest && m.path = path
    match (tree.production? found.id path).or test? with
    | some module => .ok module
    | none => .error (.unknownModule path name)

/-- The names of the modules that the module at an address can see, in order of their paths. -/
def visibleFrom (workspace : Workspace) (address : String) (package : Option String) :
    Except AddressProblem (List String) := do
  let requester ← workspace.findModule address package
  return (workspace.resolution.visibleModules requester).map workspace.resolution.tree.displayPath

end Workspace

end LetModules
