import LetModules.Diagnostic
import LetModules.Text.Segments
import LetModules.Tier

/-!
What can go wrong when modules are resolved. A problem concerns one import item, one re-export or
one layout decision; the causes that are fatal drop the package they are found in.
-/

namespace LetModules

/-- More about a full path that leads nowhere. -/
inductive PathHint where
  /-- The written path is the tail of exactly one module path. -/
  | didYouMean (path : String)
  /-- The first segment names a package on which the importing one does not depend. -/
  | notADependency (package : String)
  /-- The last segment names a directory that no module folds. -/
  | notFolded (directory : String)
  deriving DecidableEq, Repr

namespace PathHint

/-- The hint as a note. -/
def note : PathHint → String
  | .didYouMean path => helpNote s!"paths start at the package root: did you mean `{path}`?"
  | .notADependency package =>
    helpNote s!"add `{package}` to the package dependencies to import from it"
  | .notFolded directory =>
    s!"directory `{directory}` has no module named after it, so it cannot be imported"

end PathHint

/-- The cause of a problem. Modules are named by the paths that messages show. -/
inductive Cause where
  /-- A bare module name that names no module, or several, in or below the importer's directory. -/
  | notInScope (name importer : String) (candidates : List String)
  /-- A full path with a segment that does not exist. -/
  | pathNotFound (path missing : String) (hint : Option PathHint)
  /-- The target module does not export the name. -/
  | notExported (name target : String) (available : List String)
  /-- The importer may not see the declaration, or, without a name, anything of the module. -/
  | notVisible (name : Option String) (target importer : String) (tier : Option Tier)
  /-- Several modules are named after their directory. -/
  | ambiguousFold (directory : String) (candidates : Nat)
  /-- Several test modules claim one production module. -/
  | duplicatePairing (test production pairedWith : String)
  /-- Several modules would own one path. -/
  | duplicateModule (path : String)
  /-- A module declares a name again. -/
  | duplicateDeclaration (name path : String)
  /-- Re-exports that lead back to themselves. -/
  | circularReexport (cycle : List String)
  /-- A module imports from itself. -/
  | selfImport (path : String)
  /-- Two imports of a module introduce one name. -/
  | duplicateImport (name path : String)
  /-- Two packages have one name. -/
  | duplicatePackage (name : String)
  /-- A dependency is not there. -/
  | unknownPackage (name dependent : String)
  deriving DecidableEq, Repr

namespace Cause

/-- The code under which a cause is reported. -/
def code : Cause → String
  | .notInScope .. => "E0101"
  | .pathNotFound .. => "E0102"
  | .notExported .. => "E0103"
  | .notVisible .. => "E0104"
  | .ambiguousFold .. => "E0105"
  | .duplicatePairing .. => "E0106"
  | .duplicateModule .. => "E0107"
  | .duplicateDeclaration .. => "E0108"
  | .circularReexport .. => "E0109"
  | .selfImport .. => "E0110"
  | .duplicateImport .. => "E0111"
  | .duplicatePackage .. => "E0112"
  | .unknownPackage .. => "E0113"

/-- The causes for which a whole package is dropped. -/
def isFatal : Cause → Bool
  | .ambiguousFold .. | .duplicateModule .. | .duplicatePackage .. => true
  | _ => false

/-- What stands behind the last `::` of a text. -/
def lastSegment (path : String) : String :=
  match Text.cutAtColons path.toList.reverse with
  | [] => path
  | last :: _ => String.ofList last.reverse

def message : Cause → String
  | .notInScope name importer _ => s!"Module `{name}` is not in scope of `{importer}`"
  | .pathNotFound path _ _ => s!"Module path `{path}` not found"
  | .notExported name target _ => s!"`{name}` is not exported by module `{target}`"
  | .notVisible (some name) target _ _ => s!"`{name}` from module `{target}` is not visible here"
  | .notVisible none target _ _ => s!"Module `{target}` is not visible here"
  | .ambiguousFold directory candidates =>
    let name := lastSegment directory
    s!"Directory `{directory}` has {candidates} modules named `{name}`"
  | .duplicatePairing test production _ =>
    s!"Test module `{test}` pairs with `{production}`, which already has a test module"
  | .duplicateModule path => s!"Module `{path}` is defined more than once"
  | .duplicateDeclaration name path => s!"`{name}` is already declared in module `{path}`"
  | .circularReexport _ => "Circular re-export detected"
  | .selfImport path => s!"Module `{path}` cannot import from itself"
  | .duplicateImport name path => s!"`{name}` is imported more than once in module `{path}`"
  | .duplicatePackage name => s!"Package `{name}` is defined more than once"
  | .unknownPackage name dependent =>
    s!"Package `{dependent}` depends on `{name}`, which is not loaded"

/-- What is written at the place of the problem. -/
def labelMessage : Cause → String
  | .notInScope .. => "not a sibling or nested module"
  | .pathNotFound _ missing _ => s!"no module `{missing}` at this path"
  | .notExported name _ _ => s!"`{name}` not exported"
  | .notVisible _ _ _ (some tier) => tier.keyword ++ " declaration"
  | .notVisible _ _ _ none => "hidden module"
  | .ambiguousFold .. => "ambiguous fold target"
  | .duplicatePairing .. => "second test module"
  | .duplicateModule .. => "duplicate module"
  | .duplicateDeclaration name _ => s!"`{name}` redeclared here"
  | .circularReexport _ => "re-export cycle"
  | .selfImport _ => "self-import"
  | .duplicateImport name _ => s!"`{name}` imported again"
  | .duplicatePackage _ => "duplicate package"
  | .unknownPackage .. => "unknown package"

/-- What else is known about the problem. -/
def note? : Cause → Option String
  | .notInScope _ _ [] => some (helpNote "short-form imports only reach sibling and nested modules")
  | .notInScope _ _ candidates =>
    some (helpNote ("use the full path of one of: " ++ ", ".intercalate candidates))
  | .pathNotFound _ _ hint => hint.map PathHint.note
  | .notExported _ _ [] => none
  | .notExported _ _ available => some ("Exported items: " ++ ", ".intercalate available)
  | .notVisible none _ importer _ => some s!"nothing in this module is visible from `{importer}`"
  | .duplicatePairing _ _ pairedWith => some s!"already paired with `{pairedWith}`"
  | .circularReexport cycle => some ("Re-export cycle: " ++ " -> ".intercalate cycle)
  | _ => none

end Cause

/-- A cause and, as far as they are known, the file and the place. -/
structure Problem where
  cause : Cause
  span : Option Span
  file : Option FileId
  deriving DecidableEq, Repr

namespace Problem

/-- A problem whose place is not known. -/
def of (cause : Cause) : Problem := ⟨cause, none, none⟩

/-- Fills in the file and the place where they are missing. -/
def placed (problem : Problem) (file : Option FileId) (span : Option Span) : Problem :=
  { problem with file := problem.file.or file, span := problem.span.or span }

def isFatal (problem : Problem) : Bool := problem.cause.isFatal

/-- The problem in one line. -/
def text (problem : Problem) : String := problem.cause.code ++ ": " ++ problem.cause.message

/-- The problem as it is reported. It points into a file if both file and place are known. -/
def toDiagnostic (problem : Problem) : Diagnostic where
  severity := .error
  code := some problem.cause.code
  message := problem.cause.message
  labels :=
    match problem.file, problem.span with
    | some file, some span => [⟨.primary, file, span, problem.cause.labelMessage⟩]
    | _, _ => []
  notes := problem.cause.note?.toList

end Problem

end LetModules
