import LetModules.Binding
import LetModules.ImportGraph
import LetModules.Tree.Growth

/-!
Resolving packages: the module tree is grown, tests are paired, re-exports are followed, imports are
bound, and the bindings make the import graph. Each step reads only what the steps before it made,
and its problems follow theirs.
-/

namespace LetModules

/-- All that resolving packages found out. -/
structure Resolution extends Linked where
  /-- What each imported item came to, in order of the sites. -/
  bindings : List SiteResult
  /-- The problems of all steps. -/
  problems : List Problem
  graph : ImportGraph

namespace Resolution

/-- The graph of the bindings that were made. -/
def graphOf (bindings : List SiteResult) : ImportGraph :=
  bindings.foldl
    (fun graph (site, result) =>
      match result with
      | .ok binding => graph.add site.module binding.target.id
      | .error _ => graph)
    .empty

/-- Resolves a grown tree against a registry. -/
def ofGrowth (settings : Settings) (growth : Growth) (registry : Registry) : Resolution :=
  let pairing := Pairing.ofTree growth.tree settings
  let scope : Scope := ⟨growth.tree, registry, pairing.pairs⟩
  let exports := Exports.ofScope scope
  let linked : Linked := ⟨scope, exports.1⟩
  let imports := growth.tree.modules.map (ModuleImports.ofModule linked)
  let bindings := imports.flatMap (·.sites)
  { linked with
    bindings := bindings
    problems :=
      growth.problems ++ pairing.problems ++ exports.2 ++ imports.flatMap (·.problems)
    graph := graphOf bindings }

/-- Resolves packages against the registry that they make up. -/
def ofSources (settings : Settings) (sources : List PackageSource) : Resolution :=
  let growth := Growth.ofSources sources
  ofGrowth settings growth (.ofTree growth.tree)

def hasErrors (resolution : Resolution) : Bool := !resolution.problems.isEmpty

/-- The problems as they are reported. -/
def diagnostics (resolution : Resolution) : List Diagnostic :=
  resolution.problems.map Problem.toDiagnostic

/-- What the item at a site came to. -/
def binding? (resolution : Resolution) (site : Site) : Option (Except Problem Binding) :=
  (resolution.bindings.find? (·.1 = site)).map (·.2)

/-- The bindings of a module, in source order. -/
def bindingsOf (resolution : Resolution) (module : ModuleId) : List Binding :=
  resolution.bindings.filterMap fun (site, result) =>
    if site.module = module then result.toOption else none

/-- The production module of a package by its path as text. -/
def findModule? (resolution : Resolution) (package path : String) : Option Module :=
  (resolution.tree.packageNamed? package).bind fun found =>
    resolution.tree.production? found.id (Text.segments path)

end Resolution

end LetModules
