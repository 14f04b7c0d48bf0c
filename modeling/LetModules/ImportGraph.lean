import LetModules.Tree

/-!
Who imports from whom. The graph answers which modules have to be resolved again when one changes
(`invalidation`), and which groups of modules import each other (`cycles`); cycles are allowed.
-/

namespace LetModules

/-- An edge for each module that imports and each module it imports from. -/
structure ImportGraph where
  /-- Importers with their targets, each pair once. -/
  edges : List (ModuleId × ModuleId)
  deriving DecidableEq, Repr

namespace ModuleId

/-- Ids sorted by place. -/
def sort (ids : List ModuleId) : List ModuleId := ids.mergeSort fun a b => a.index ≤ b.index

end ModuleId

namespace ImportGraph

def empty : ImportGraph := ⟨[]⟩

/-- Records that `importer` imports from `target`. -/
def add (graph : ImportGraph) (importer target : ModuleId) : ImportGraph :=
  if graph.edges.contains (importer, target) then graph
  else ⟨graph.edges ++ [(importer, target)]⟩

/-- The modules that import from one of the given ones. -/
def importers (graph : ImportGraph) (targets : List ModuleId) : List ModuleId :=
  (graph.edges.filter (targets.contains ·.2)).map (·.1)

/-- The modules that one of the given ones imports from. -/
def imported (graph : ImportGraph) (importers : List ModuleId) : List ModuleId :=
  (graph.edges.filter (importers.contains ·.1)).map (·.2)

/-- The modules that import from a module. -/
def dependents (graph : ImportGraph) (module : ModuleId) : List ModuleId :=
  ModuleId.sort (graph.importers [module])

/-- The modules that a module imports from. -/
def dependencies (graph : ImportGraph) (module : ModuleId) : List ModuleId :=
  ModuleId.sort (graph.imported [module])

/-- All modules of the graph, each once. -/
def modules (graph : ImportGraph) : List ModuleId :=
  (graph.edges.flatMap fun edge => [edge.1, edge.2]).eraseDups

/-- The members of a list that have been found. -/
def met (found modules : List ModuleId) : List ModuleId := modules.filter (found.contains ·)

/-- The members of a list that have not been found. -/
def missed (found modules : List ModuleId) : List ModuleId := modules.filter (!found.contains ·)

theorem length_missed_lt {found modules : List ModuleId} (h : met found modules ≠ []) :
    (missed found modules).length < modules.length := by
  obtain ⟨m, hm⟩ := List.exists_mem_of_ne_nil _ h
  have ⟨mem, hit⟩ := List.mem_filter.mp hm
  exact List.length_filter_lt_length_iff_exists.mpr ⟨m, mem, by simpa using hit⟩

/-- The modules of `unreached` that repeated steps lead to from `frontier`, nearest first. -/
def reach (step : List ModuleId → List ModuleId) (frontier unreached : List ModuleId) :
    List ModuleId :=
  let found := step frontier
  let next := met found unreached
  if _h : next = [] then [] else next ++ reach step next (missed found unreached)
termination_by unreached.length
decreasing_by exact length_missed_lt _h

/-- The modules that rest on a module, directly or through others. The module itself is one of them
only if it lies on a cycle. -/
def invalidation (graph : ImportGraph) (module : ModuleId) : List ModuleId :=
  ModuleId.sort (reach graph.importers [module] graph.modules)

/-- The modules on which a module rests, directly or through others. -/
def foundation (graph : ImportGraph) (module : ModuleId) : List ModuleId :=
  reach graph.imported [module] graph.modules

/-- The modules that rest on a module and on which it rests. -/
def group (graph : ImportGraph) (module : ModuleId) : List ModuleId :=
  let foundation := graph.foundation module
  (graph.invalidation module).filter (foundation.contains ·)

/-- Larger groups come first, and of two of one size the one with the lesser ids. -/
def groupBefore (a b : List ModuleId) : Bool :=
  b.length < a.length || (a.length = b.length && !(b.map (·.index)).lex (a.map (·.index)))

/-- The groups of modules that import each other, a module that imports from itself included. -/
def cycles (graph : ImportGraph) : List (List ModuleId) :=
  ((graph.modules.map graph.group).filter (· ≠ [])).eraseDups.mergeSort groupBefore

/-- The number of edges. -/
def size (graph : ImportGraph) : Nat := graph.edges.length

end ImportGraph

end LetModules
