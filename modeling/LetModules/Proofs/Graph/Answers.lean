import LetModules.Proofs.Graph.Invalidation
import Mathlib.Data.List.Cycle
import Mathlib.Data.List.Dedup

/-!
What the graph of imports answers. A search through the graph takes one round for each module at
most, and one to see that it is over (`reachWithin_eq_some_reach`); it finds no module twice, so an
invalidation is a list in strict order (`increasing_invalidation`). Recording an import again changes
nothing, and so the answers can be read off the set of the imports that were recorded
(`answers_ofImports`), and do not depend on when or how often they were (`Answers.sameAnswers`).

In a resolution, invalidation is reachability against the direction of the bindings
(`invalidation_reverses_bindings`).
-/

namespace LetModules

open Relation (ReflTransGen TransGen)

section Cycle

variable {R : α → α → Prop} {a b : α}

/-- What a path leads to, a path without detours leads to. -/
theorem exists_nodup_isChain (path : ReflTransGen R a b) : ∃ rest, List.IsChain R (a :: rest) ∧
    (a :: rest).getLast? = some b ∧ (a :: rest).Nodup := by
  induction path using ReflTransGen.head_induction_on with
  | refl => exact ⟨[], .singleton b, rfl, List.nodup_singleton b⟩
  | @head a c one _ ih =>
    obtain ⟨rest, chain, last, distinct⟩ := ih
    by_cases again : a ∈ c :: rest
    · -- the path comes through `a` once more, and only what follows is kept
      obtain ⟨before, after, split⟩ := List.append_of_mem again
      rw [split] at chain last distinct
      refine ⟨after, chain.right_of_append, ?_, distinct.of_append_right⟩
      rwa [List.getLast?_append_of_ne_nil _ (List.cons_ne_nil a after)] at last
    · refine ⟨c :: rest, .cons_cons one chain, ?_, List.nodup_cons.mpr ⟨again, distinct⟩⟩
      rwa [List.getLast?_cons_cons]

/-- What leads back to itself lies on a cycle that comes through each of its members once. -/
theorem transGen_self_iff_exists_cycle :
    TransGen R a a ↔ ∃ cycle : Cycle α, cycle.Nodup ∧ cycle.Chain R ∧ a ∈ cycle := by
  constructor
  · intro back
    obtain ⟨b, path, closing⟩ := TransGen.tail'_iff.mp back
    obtain ⟨rest, chain, last, distinct⟩ := exists_nodup_isChain path
    refine ⟨(a :: rest : List α), distinct, ?_, List.mem_cons_self⟩
    rw [Cycle.chain_coe_cons, ← List.cons_append]
    refine chain.append (.singleton a) fun x hx y hy => ?_
    rw [last] at hx
    obtain rfl := Option.some.inj hx
    obtain rfl := Option.some.inj hy
    exact closing
  · rintro ⟨cycle, -, chain, mem⟩
    have closed : cycle.Chain (TransGen R) := chain.imp fun _ _ => TransGen.single
    exact Cycle.chain_iff_pairwise.mp closed a mem a mem

end Cycle

namespace ModuleId

/-- Each id is less than those after it. -/
def Increasing (ids : List ModuleId) : Prop := ids.Pairwise (·.index < ·.index)

instance : Std.Asymm fun a b : ModuleId => a.index < b.index := ⟨fun _ _ => Nat.lt_asymm⟩

/-- A list in strict order is told by its members. -/
theorem Increasing.eq_of_mem_iff {first second : List ModuleId} (increasing : Increasing first)
    (increasing' : Increasing second) (same : ∀ m, m ∈ first ↔ m ∈ second) : first = second :=
  List.Pairwise.eq_of_mem_iff increasing increasing' same

theorem increasing_sort {ids : List ModuleId} (distinct : ids.Nodup) : Increasing (sort ids) := by
  have ordered : (sort ids).Pairwise fun a b => decide (a.index ≤ b.index) = true :=
    List.pairwise_mergeSort (fun _ _ _ => by simpa using Nat.le_trans)
      (fun a b => by simpa using Nat.le_total a.index b.index) ids
  have distinct' : (sort ids).Nodup := (List.mergeSort_perm ids _).nodup_iff.mpr distinct
  refine (ordered.and distinct').imp ?_
  rintro ⟨a⟩ ⟨b⟩ ⟨order, differ⟩
  exact lt_of_le_of_ne (of_decide_eq_true order) fun same => differ (congrArg _ same)

end ModuleId

namespace ImportGraph

open ModuleId (Increasing)

section Search

variable {step : List ModuleId → List ModuleId}

theorem mem_of_mem_reach {frontier unreached : List ModuleId} {m : ModuleId}
    (found : m ∈ reach step frontier unreached) : m ∈ unreached := by
  fun_induction reach step frontier unreached with
  | case1 => exact absurd found List.not_mem_nil
  | case2 frontier unreached found' next some_met ih =>
    rcases List.mem_append.mp found with here | later
    · exact (mem_met.mp here).1
    · exact (mem_missed.mp (ih later)).1

/-- A search finds nothing twice: what has been met is not searched for again. -/
theorem nodup_reach {frontier unreached : List ModuleId} (distinct : unreached.Nodup) :
    (reach step frontier unreached).Nodup := by
  fun_induction reach step frontier unreached with
  | case1 => exact List.nodup_nil
  | case2 frontier unreached found next some_met ih =>
    refine (distinct.filter _).append (ih (distinct.filter _)) fun m here later => ?_
    exact (mem_missed.mp (mem_of_mem_reach later)).2 (mem_met.mp here).2

/-- The search cut off after a number of rounds; nothing if it is not over by then. -/
def reachWithin (step : List ModuleId → List ModuleId) :
    Nat → List ModuleId → List ModuleId → Option (List ModuleId)
  | 0, _, _ => none
  | rounds + 1, frontier, unreached =>
    let found := step frontier
    let next := met found unreached
    if next = [] then some []
    else (reachWithin step rounds next (missed found unreached)).map (next ++ ·)

/-- Each round but the last reaches a module, so that the search ends. -/
theorem reachWithin_eq_some_reach {rounds : Nat} {frontier unreached : List ModuleId}
    (enough : unreached.length < rounds) :
    reachWithin step rounds frontier unreached = some (reach step frontier unreached) := by
  induction rounds generalizing frontier unreached with
  | zero => omega
  | succ rounds ih =>
    rw [reachWithin, reach]
    split
    · rfl
    · rename_i some_met
      have shorter := length_missed_lt some_met
      rw [ih (by omega), Option.map_some]

end Search

variable (graph : ImportGraph)

/-- The graph with its edges turned round. -/
def converse : ImportGraph := ⟨graph.edges.map Prod.swap⟩

theorem importers_converse : graph.converse.importers = graph.imported := by
  funext targets
  simp [importers, imported, converse, List.filter_map, Function.comp_def]

theorem rests_converse {m n : ModuleId} : graph.converse.Rests m n ↔ graph.Rests n m := by
  simp [Rests, converse]

theorem mem_dependents {m n : ModuleId} : n ∈ graph.dependents m ↔ graph.Rests m n := by
  rw [dependents, mem_sort, mem_importers]
  simp

theorem dependents_converse (m : ModuleId) : graph.converse.dependents m = graph.dependencies m := by
  rw [dependents, importers_converse, dependencies]

theorem mem_dependencies {m n : ModuleId} : n ∈ graph.dependencies m ↔ graph.Rests n m := by
  rw [← dependents_converse, mem_dependents, rests_converse]

theorem nodup_modules : graph.modules.Nodup := nodup_eraseDups _

theorem increasing_invalidation (m : ModuleId) : Increasing (graph.invalidation m) :=
  ModuleId.increasing_sort (nodup_reach graph.nodup_modules)

section Recorded

variable {graph}

theorem increasing_dependents (distinct : graph.edges.Nodup) (m : ModuleId) :
    Increasing (graph.dependents m) := by
  refine ModuleId.increasing_sort ((distinct.filter _).map_on ?_)
  rintro ⟨a, b⟩ ha ⟨a', b'⟩ ha' rfl
  simp_all

theorem increasing_dependencies (distinct : graph.edges.Nodup) (m : ModuleId) :
    Increasing (graph.dependencies m) :=
  graph.dependents_converse m ▸ increasing_dependents (distinct.map Prod.swap_injective) m

theorem nodup_edges_add (distinct : graph.edges.Nodup) (importer target : ModuleId) :
    (graph.add importer target).edges.Nodup := by
  rw [add]
  split
  · exact distinct
  · rename_i fresh
    rw [List.contains_iff_mem] at fresh
    exact (List.perm_append_singleton _ _).nodup_iff.mpr (List.nodup_cons.mpr ⟨fresh, distinct⟩)

/-- The graph of imports that are recorded one after the other, importers with their targets. -/
def ofImports (imports : List (ModuleId × ModuleId)) : ImportGraph :=
  imports.foldl (fun graph (importer, target) => graph.add importer target) .empty

/-- The edges are the imports that were recorded, each once. -/
theorem edges_ofImports (imports : List (ModuleId × ModuleId)) :
    (ofImports imports).edges.Nodup ∧
      ∀ edge, edge ∈ (ofImports imports).edges ↔ edge ∈ imports := by
  induction imports using List.reverseRecOn with
  | nil => exact ⟨List.nodup_nil, fun _ => Iff.rfl⟩
  | append_singleton earlier last ih =>
    obtain ⟨distinct, mem⟩ := ih
    rw [ofImports, List.foldl_append, List.foldl_cons, List.foldl_nil, ← ofImports]
    refine ⟨nodup_edges_add distinct _ _, fun edge => ?_⟩
    rw [mem_edges_add, mem, List.mem_append, List.mem_singleton]

theorem rests_ofImports {imports : List (ModuleId × ModuleId)} {m n : ModuleId} :
    (ofImports imports).Rests m n ↔ (n, m) ∈ imports :=
  (edges_ofImports imports).2 (n, m)

end Recorded

/-- What a graph answers in which the imports have been recorded: lists in strict order, and as its
size the number of different imports. -/
structure Answers (graph : ImportGraph) (imports : List (ModuleId × ModuleId)) : Prop where
  dependents : ∀ m, Increasing (graph.dependents m) ∧
    ∀ n, n ∈ graph.dependents m ↔ (n, m) ∈ imports
  dependencies : ∀ m, Increasing (graph.dependencies m) ∧
    ∀ n, n ∈ graph.dependencies m ↔ (m, n) ∈ imports
  invalidation : ∀ m, Increasing (graph.invalidation m) ∧
    ∀ n, n ∈ graph.invalidation m ↔ TransGen (fun a b => (b, a) ∈ imports) m n
  size : graph.size = imports.dedup.length
  /-- The search for an invalidation is over once it can have reached every module. -/
  ends : ∀ m, (reachWithin graph.importers (graph.modules.length + 1) [m] graph.modules).map
    ModuleId.sort = some (graph.invalidation m)

theorem answers_ofImports (imports : List (ModuleId × ModuleId)) :
    Answers (ofImports imports) imports := by
  obtain ⟨distinct, mem⟩ := edges_ofImports imports
  constructor
  case dependents =>
    intro m
    refine ⟨increasing_dependents distinct m, fun n => ?_⟩
    rw [mem_dependents, rests_ofImports]
  case dependencies =>
    intro m
    refine ⟨increasing_dependencies distinct m, fun n => ?_⟩
    rw [mem_dependencies, rests_ofImports]
  case invalidation =>
    intro m
    refine ⟨increasing_invalidation _ m, fun n => ?_⟩
    have rests : (ofImports imports).Rests = fun a b => (b, a) ∈ imports := by
      funext a b
      exact propext rests_ofImports
    rw [mem_invalidation_iff, rests]
  case size =>
    have same := (List.perm_ext_iff_of_nodup distinct imports.nodup_dedup).mpr fun edge => by
      rw [mem, List.mem_dedup]
    exact same.length_eq
  case ends =>
    intro m
    rw [reachWithin_eq_some_reach (Nat.lt_succ_self _)]
    rfl

/-- Two graphs answer all questions alike. -/
structure SameAnswers (graph other : ImportGraph) : Prop where
  dependents : ∀ m, graph.dependents m = other.dependents m
  dependencies : ∀ m, graph.dependencies m = other.dependencies m
  invalidation : ∀ m, graph.invalidation m = other.invalidation m
  size : graph.size = other.size

/-- The answers are told by the imports, whatever their order and however often they are given. -/
theorem Answers.sameAnswers {graph other : ImportGraph} {imports others : List (ModuleId × ModuleId)}
    (answers : Answers graph imports) (answers' : Answers other others)
    (same : ∀ edge, edge ∈ imports ↔ edge ∈ others) : SameAnswers graph other := by
  constructor
  case dependents =>
    intro m
    refine (answers.dependents m).1.eq_of_mem_iff (answers'.dependents m).1 fun n => ?_
    rw [(answers.dependents m).2, (answers'.dependents m).2, same]
  case dependencies =>
    intro m
    refine (answers.dependencies m).1.eq_of_mem_iff (answers'.dependencies m).1 fun n => ?_
    rw [(answers.dependencies m).2, (answers'.dependencies m).2, same]
  case invalidation =>
    intro m
    refine (answers.invalidation m).1.eq_of_mem_iff (answers'.invalidation m).1 fun n => ?_
    simp only [(answers.invalidation m).2, (answers'.invalidation m).2, same]
  case size =>
    rw [answers.size, answers'.size]
    refine ((List.perm_ext_iff_of_nodup imports.nodup_dedup others.nodup_dedup).mpr ?_).length_eq
    intro edge
    rw [List.mem_dedup, List.mem_dedup, same]

end ImportGraph

namespace Resolution

open ImportGraph (Answers SameAnswers ofImports)

/-- Invalidation is reachability against the direction of the bindings: the modules that are resolved
again with a module are those from which a chain of bindings leads to it, in strict order, and the
module itself is among them if it lies on a cycle of bindings. In any graph the search for them ends,
and what a graph answers depends on the imports that were recorded as a set. -/
theorem invalidation_reverses_bindings (settings : Settings) (growth : Growth)
    (registry : Registry) :
    let r := ofGrowth settings growth registry
    (∀ m, ModuleId.Increasing (r.graph.invalidation m) ∧
      (∀ n, n ∈ r.graph.invalidation m ↔ TransGen r.ImportsFrom m n) ∧
      (m ∈ r.graph.invalidation m ↔
        ∃ cycle : Cycle ModuleId, cycle.Nodup ∧ cycle.Chain r.ImportsFrom ∧ m ∈ cycle)) ∧
    ∀ imports, Answers (ofImports imports) imports ∧
      ∀ others, (∀ edge, edge ∈ imports ↔ edge ∈ others) →
        SameAnswers (ofImports imports) (ofImports others) := by
  intro r
  refine ⟨fun m => ?_, fun imports => ⟨ImportGraph.answers_ofImports imports, ?_⟩⟩
  · have leads : ∀ n, n ∈ r.graph.invalidation m ↔ TransGen r.ImportsFrom m n :=
      fun n => mem_invalidation_ofGrowth_iff settings growth registry
    exact ⟨ImportGraph.increasing_invalidation _ m, leads,
      (leads m).trans transGen_self_iff_exists_cycle⟩
  · intro others same
    exact (ImportGraph.answers_ofImports imports).sameAnswers
      (ImportGraph.answers_ofImports others) same

/-- Two modules that import from each other, and a third that imports from the first of them. -/
def circleSample : List PackageSource :=
  let file := fun (name target : String) => (⟨name, none, [⟨"f", .public, .function, none, none⟩],
    [⟨⟨[target], none⟩, [⟨"f", some "g", none⟩], none⟩]⟩ : ModuleSource)
  [⟨"app", [], ⟨"src", [file "A" "B", file "B" "A", file "C" "A"], []⟩, none⟩]

/-- In the sample a change of `B` reaches everything, and so `B` itself. -/
theorem invalidation_reverses_bindings_sample :
    let r := ofSources .standard circleSample
    let imports : List (ModuleId × ModuleId) := [(⟨0⟩, ⟨1⟩), (⟨1⟩, ⟨0⟩), (⟨2⟩, ⟨0⟩)]
    r.graph.edges = imports ∧ r.graph.invalidation ⟨1⟩ = [⟨0⟩, ⟨1⟩, ⟨2⟩] ∧
      r.graph.invalidation ⟨2⟩ = [] ∧
      (∃ cycle : Cycle ModuleId, cycle.Nodup ∧ cycle.Chain r.ImportsFrom ∧ ⟨1⟩ ∈ cycle) ∧
      SameAnswers (ofImports imports) (ofImports (imports.reverse ++ imports)) := by
  intro r imports
  have edges : r.graph.edges = imports := by decide +kernel
  have found : ∀ m, r.graph.invalidation m = (⟨imports⟩ : ImportGraph).invalidation m :=
    fun m => by rw [← edges]
  have all : r.graph.invalidation ⟨1⟩ = [⟨0⟩, ⟨1⟩, ⟨2⟩] := by
    rw [found]
    cbv
  have leaf : r.graph.invalidation ⟨2⟩ = [] := by
    rw [found]
    cbv
  obtain ⟨exact, recorded⟩ :=
    invalidation_reverses_bindings .standard (Growth.ofSources circleSample) _
  refine ⟨edges, all, leaf, (exact ⟨1⟩).2.2.mp ?_, (recorded imports).2 _ fun edge => ?_⟩
  · exact all ▸ by simp
  · simp

end Resolution

end LetModules
