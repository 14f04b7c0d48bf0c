import LetModules.Proofs.Binding.Encapsulation
import LetModules.Proofs.Graph.Reach

/-!
Which modules are resolved again when one changes. The graph has an edge for each module from which
something is bound, so a module is in the invalidation of another exactly if bindings lead from the
one to the other (`mem_invalidation_ofGrowth_iff`). A binding invalidates with the module that it is
imported from (`invalidated_of_mem_bindings`). It does not with the module of its concrete
declaration, once it gets there through a re-export: a re-export is no import and makes no edge
(`not_invalidated_behind_reexport`).
-/

namespace LetModules.Resolution

open Relation (TransGen)

/-- The edges are those of the bindings that were made. -/
theorem mem_edges_graphOf {bindings : List SiteResult} {edge : ModuleId × ModuleId} :
    edge ∈ (graphOf bindings).edges ↔ ∃ site binding, (site, .ok binding) ∈ bindings ∧
      edge = (site.module, binding.target.id) := by
  induction bindings using List.reverseRecOn with
  | nil => simp [graphOf, ImportGraph.empty]
  | append_singleton earlier entry ih =>
    obtain ⟨site, result⟩ := entry
    rw [graphOf, List.foldl_append, List.foldl_cons, List.foldl_nil, ← graphOf]
    cases result with
    | error problem => simp [ih]
    | ok binding => simp [ImportGraph.mem_edges_add, ih, or_and_right, exists_or]

/-- The module `importer` holds a binding that it imports from `target`. -/
def ImportsFrom (r : Resolution) (target importer : ModuleId) : Prop :=
  ∃ site binding, (site, .ok binding) ∈ r.bindings ∧
    site.module = importer ∧ binding.target.id = target

/-- A module is resolved again with another one if bindings lead from it to that one. -/
theorem mem_invalidation_ofGrowth_iff (settings : Settings) (growth : Growth)
    (registry : Registry) {m importer : ModuleId} :
    let r := ofGrowth settings growth registry
    importer ∈ r.graph.invalidation m ↔ TransGen r.ImportsFrom m importer := by
  intro r
  have same : r.graph.Rests = r.ImportsFrom := by
    funext target importer
    refine propext (show (importer, target) ∈ (graphOf r.bindings).edges ↔ _ from ?_)
    simp only [mem_edges_graphOf, Prod.mk.injEq, ImportsFrom, eq_comm]
  rw [ImportGraph.mem_invalidation_iff, same]

/-- What a binding was found through, by the importer and in the target. -/
theorem exists_finds_of_mem_bindings (settings : Settings) (sources : List PackageSource)
    {site : Site} {b : Binding} (mem : (site, .ok b) ∈ (ofSources settings sources).bindings) :
    ∃ importer ∈ (ofSources settings sources).tree.modules, site.module = importer.id ∧
      b.target ∈ (ofSources settings sources).tree.modules ∧
        (ofSources settings sources).toLinked.Finds importer b.target b.imported b.via
          b.declaration := by
  have sound := sound_ofSources settings sources
  obtain ⟨importer, hm, statement, item, same, -, -, result⟩ :=
    (mem_bindings_iff settings sources).mp mem
  obtain ⟨target, found, bound⟩ := Linked.result_eq_ok_iff.mp result.symm
  have ht := sound.locate_mem hm (Linked.target_eq_ok_iff.mp found).1
  obtain ⟨d, -, -, -, sits⟩ := sound.tree.exists_directory ht
  obtain ⟨via, origin, finds, rfl⟩ := (Linked.bind_eq_ok_iff sits.distinct).mp bound
  exact ⟨importer, hm, same, ht, finds⟩

/-- An importer is resolved again with the module it is bound to something of, and so with the
module of the concrete declaration unless it gets there through a re-export. -/
theorem invalidated_of_mem_bindings (settings : Settings) (sources : List PackageSource)
    {site : Site} {b : Binding} (mem : (site, .ok b) ∈ (ofSources settings sources).bindings) :
    site.module ∈ (ofSources settings sources).graph.invalidation b.target.id ∧
      (b.via.isReexport = false →
        site.module ∈ (ofSources settings sources).graph.invalidation b.declaration.owner) := by
  have sound := sound_ofSources settings sources
  have direct : site.module ∈ (ofSources settings sources).graph.invalidation b.target.id :=
    (mem_invalidation_ofGrowth_iff settings (Growth.ofSources sources) _).mpr
      (.single ⟨site, b, mem, rfl, rfl⟩)
  refine ⟨direct, fun concrete => ?_⟩
  obtain ⟨importer, -, -, ht, finds⟩ := exists_finds_of_mem_bindings settings sources mem
  have itself : b.via = b.declaration := by
    have origin := finds.origin
    rwa [Exports.originOf, if_neg (by simp [concrete]), Option.some.injEq] at origin
  rwa [← itself, sound.tree.owner_eq ht finds.declared]

/-- A module, one that re-exports its declaration, and one that imports it from there. -/
def facadeSample : List PackageSource :=
  let core : ModuleSource := ⟨"Core", none, [⟨"get", .public, .function, none, none⟩], []⟩
  let facade : ModuleSource := ⟨"Facade", none,
    [⟨"get", .public, .reexport, some ⟨["Core"], none⟩, none⟩], []⟩
  let main : ModuleSource := ⟨"Main", none, [], [⟨⟨["Facade"], none⟩, [⟨"get", none, none⟩], none⟩]⟩
  [⟨"app", [], ⟨"src", [core, facade, main], []⟩, none⟩]

/-- In the sample, `Main` holds a binding to a declaration of `Core`, and is not resolved again with
it. -/
theorem not_invalidated_behind_reexport :
    ∃ site b, (site, .ok b) ∈ (ofSources .standard facadeSample).bindings ∧
      site.module ∉ (ofSources .standard facadeSample).graph.invalidation b.declaration.owner := by
  let get : Declaration := ⟨⟨"get", .public, .function, none, none⟩, ⟨0⟩, ⟨0⟩⟩
  let again : Declaration := ⟨⟨"get", .public, .reexport, some ⟨["Core"], none⟩, none⟩, ⟨1⟩, ⟨1⟩⟩
  let facade : Module := ⟨⟨1⟩, "Facade", ["Facade"], ⟨0⟩, ⟨0⟩, .source, false, [again], [], none⟩
  refine ⟨⟨⟨2⟩, 0, 0⟩, ⟨"get", "get", get, again, facade, none⟩, by decide +kernel, ?_⟩
  -- the only edge leads to `Facade`
  have edges : (ofSources .standard facadeSample).graph.edges = [(⟨2⟩, ⟨1⟩)] := by decide +kernel
  rw [ImportGraph.mem_invalidation_iff]
  intro path
  obtain ⟨_, first, -⟩ := TransGen.head'_iff.mp path
  rw [ImportGraph.Rests, edges] at first
  simp [get] at first

end LetModules.Resolution
