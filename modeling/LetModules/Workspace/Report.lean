import LetModules.Json.Writer
import LetModules.Workspace.Tests

/-!
The report of a check for other programs: the packages, the bindings that were made, the diagnostics
split into errors and warnings, the entry points of tests and the import cycles.
-/

namespace LetModules

/-- A package in a report. -/
structure PackageSummary where
  name : String
  root : String
  files : Nat
  dependencies : List String
  deriving DecidableEq, Repr

/-- A binding in a report, with the full names of its declarations. -/
structure BindingRecord where
  module : String
  localName : String
  declaration : String
  via : String
  deriving DecidableEq, Repr

/-- A diagnostic in a report. It is placed where its first label starts; lines and columns count
from one. -/
structure DiagnosticRecord where
  code : Option String
  message : String
  file : Option String
  line : Option Nat
  column : Option Nat
  notes : List String
  deriving DecidableEq, Repr

/-- What a check tells other programs. -/
structure Report where
  packages : List PackageSummary
  bindings : List BindingRecord
  errors : List DiagnosticRecord
  warnings : List DiagnosticRecord
  entryPoints : List TestListing
  importCycles : List (List String)
  deriving DecidableEq, Repr

/-! ### Making a report -/

namespace PackageSummary

def ofPackage (package : LoadedPackage) : PackageSummary :=
  ⟨package.manifest.name, package.root, package.fileCount, package.manifest.dependencies⟩

end PackageSummary

namespace ModuleTree

/-- The name of a module by its id, empty for an id that was never handed out. -/
def displayPathOf (tree : ModuleTree) (id : ModuleId) : String :=
  ((tree.module? id).map tree.displayPath).getD ""

/-- The full name of a declaration. -/
def qualifiedName (tree : ModuleTree) (declaration : Declaration) : String :=
  tree.displayPathOf declaration.owner ++ "::" ++ declaration.name

end ModuleTree

namespace BindingRecord

/-- The record of an item that was bound. -/
def ofSite? (tree : ModuleTree) : SiteResult → Option BindingRecord
  | (site, .ok binding) =>
    some ⟨tree.displayPathOf site.module, binding.localName,
      tree.qualifiedName binding.declaration, tree.qualifiedName binding.via⟩
  | (_, .error _) => none

end BindingRecord

namespace DiagnosticRecord

/-- The record of a diagnostic. -/
def ofDiagnostic (sources : Sources) (diagnostic : Diagnostic) : DiagnosticRecord :=
  let label := diagnostic.labels.head?
  let place := label.bind fun label =>
    (sources.file? label.file).map fun file => Text.locate file.text label.span.start
  ⟨diagnostic.code, diagnostic.message, label.map fun label => sources.nameOf label.file,
    place.map (·.line + 1), place.map (·.column + 1), diagnostic.notes⟩

end DiagnosticRecord

namespace Workspace

/-- The report of a workspace. What is no error counts as a warning. -/
def report (workspace : Workspace) : Report :=
  let resolution := workspace.resolution
  let (errors, warnings) := workspace.diagnostics.partition (·.isError)
  { packages := workspace.packages.map PackageSummary.ofPackage
    bindings := resolution.bindings.filterMap (BindingRecord.ofSite? resolution.tree)
    errors := errors.map (DiagnosticRecord.ofDiagnostic workspace.sources)
    warnings := warnings.map (DiagnosticRecord.ofDiagnostic workspace.sources)
    entryPoints := workspace.testListings
    importCycles := resolution.graph.cycles.map fun cycle =>
      cycle.map resolution.tree.displayPathOf }

end Workspace

namespace Report

def hasErrors (report : Report) : Bool := !report.errors.isEmpty

end Report

/-! ### Writing a report -/

namespace PackageSummary

def toJson (summary : PackageSummary) : Json :=
  Json.record
    [("name", Json.ofString summary.name), ("root", Json.ofString summary.root),
      ("files", Json.ofNat summary.files), ("dependencies", Json.ofStrings summary.dependencies)]

end PackageSummary

namespace BindingRecord

def toJson (binding : BindingRecord) : Json :=
  Json.record
    [("module", Json.ofString binding.module), ("local_name", Json.ofString binding.localName),
      ("declaration", Json.ofString binding.declaration), ("via", Json.ofString binding.via)]

end BindingRecord

namespace DiagnosticRecord

def toJson (diagnostic : DiagnosticRecord) : Json :=
  Json.record
    [("code", Json.ofOption Json.ofString diagnostic.code),
      ("message", Json.ofString diagnostic.message),
      ("file", Json.ofOption Json.ofString diagnostic.file),
      ("line", Json.ofOption Json.ofNat diagnostic.line),
      ("column", Json.ofOption Json.ofNat diagnostic.column),
      ("notes", Json.ofStrings diagnostic.notes)]

end DiagnosticRecord

namespace TestListing

def toJson (listing : TestListing) : Json :=
  Json.record
    [("test_module", Json.ofString listing.test),
      ("production_module", Json.ofString listing.production),
      ("entry_points", Json.ofStrings listing.entryPoints)]

end TestListing

namespace Report

def toJson (report : Report) : Json :=
  Json.record
    [("packages", .array (report.packages.map (·.toJson))),
      ("bindings", .array (report.bindings.map (·.toJson))),
      ("errors", .array (report.errors.map (·.toJson))),
      ("warnings", .array (report.warnings.map (·.toJson))),
      ("entry_points", .array (report.entryPoints.map (·.toJson))),
      ("import_cycles", .array (report.importCycles.map Json.ofStrings))]

end Report

end LetModules
