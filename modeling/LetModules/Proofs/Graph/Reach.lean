import LetModules.ImportGraph
import Mathlib.Data.List.Sort
import Mathlib.Logic.Relation

/-!
What repeated steps lead to. The frontier moves through the modules that have not been reached, so
it comes to those that a path of steps leads to (`mem_reach_iff`); in the graph of imports, the
modules that rest on a module are those from which imports lead to it (`mem_invalidation_iff`).
-/

namespace LetModules.ImportGraph

open Relation (ReflTransGen TransGen)

/-- A step of `Step` to a module of `inside`. -/
def Within (Step : ModuleId → ModuleId → Prop) (inside : List ModuleId) (a b : ModuleId) : Prop :=
  Step a b ∧ b ∈ inside

theorem mem_met {found modules : List ModuleId} {m : ModuleId} :
    m ∈ met found modules ↔ m ∈ modules ∧ m ∈ found := by
  rw [met, List.mem_filter, List.contains_iff_mem]

theorem mem_missed {found modules : List ModuleId} {m : ModuleId} :
    m ∈ missed found modules ↔ m ∈ modules ∧ m ∉ found := by
  rw [missed, List.mem_filter, Bool.not_eq_true', ← Bool.not_eq_true, List.contains_iff_mem]

section Reach

variable {step : List ModuleId → List ModuleId} {Step : ModuleId → ModuleId → Prop}

/-- A path inside that starts at a module met in this round is left for the last time at one. -/
theorem mem_met_or_transGen {found unreached : List ModuleId} {a m : ModuleId}
    (start : a ∈ met found unreached) (path : ReflTransGen (Within Step unreached) a m) :
    m ∈ met found unreached ∨ ∃ b ∈ met found unreached,
      TransGen (Within Step (missed found unreached)) b m := by
  induction path with
  | refl => exact .inl start
  | @tail c m _ last ih =>
    obtain ⟨one, inside⟩ := last
    by_cases again : m ∈ found
    · exact .inl (mem_met.mpr ⟨inside, again⟩)
    · have on : Within Step (missed found unreached) c m := ⟨one, mem_missed.mpr ⟨inside, again⟩⟩
      rcases ih with here | ⟨b, hb, before⟩
      · exact .inr ⟨c, here, .single on⟩
      · exact .inr ⟨b, hb, before.tail on⟩

variable (steps : ∀ frontier m, m ∈ step frontier ↔ ∃ a ∈ frontier, Step a m)

include steps

/-- The modules of `unreached` to which a path through such modules leads from the frontier. -/
theorem mem_reach_iff (frontier unreached : List ModuleId) (m : ModuleId) :
    m ∈ reach step frontier unreached ↔
      ∃ a ∈ frontier, TransGen (Within Step unreached) a m := by
  have head : ∀ {b}, b ∈ met (step frontier) unreached ↔
      ∃ a ∈ frontier, Within Step unreached a b := by
    intro b
    rw [mem_met, steps]
    exact ⟨fun ⟨inside, a, ha, one⟩ => ⟨a, ha, one, inside⟩,
      fun ⟨a, ha, one, inside⟩ => ⟨inside, a, ha, one⟩⟩
  rw [reach]
  split
  · -- nothing is met, so no path has a first step
    rename_i none_met
    refine iff_of_false List.not_mem_nil ?_
    rintro ⟨a, ha, path⟩
    obtain ⟨b, one, -⟩ := TransGen.head'_iff.mp path
    have met_one := head.mpr ⟨a, ha, one⟩
    rw [none_met] at met_one
    exact absurd met_one List.not_mem_nil
  · rename_i some_met
    have shorter := length_missed_lt some_met
    rw [List.mem_append, mem_reach_iff (met (step frontier) unreached)]
    constructor
    · rintro (here | ⟨b, hb, path⟩)
      · obtain ⟨a, ha, one⟩ := head.mp here
        exact ⟨a, ha, .single one⟩
      · obtain ⟨a, ha, one⟩ := head.mp hb
        have wider : TransGen (Within Step unreached) b m :=
          TransGen.mono (fun _ _ on => ⟨on.1, (mem_missed.mp on.2).1⟩) b m path
        exact ⟨a, ha, wider.head one⟩
    · rintro ⟨a, ha, path⟩
      obtain ⟨b, one, rest⟩ := TransGen.head'_iff.mp path
      exact mem_met_or_transGen (head.mpr ⟨a, ha, one⟩) rest
termination_by unreached.length

/-- Where no step leads out of the unreached modules, any path will do. -/
theorem mem_reach_iff_of_closed {unreached : List ModuleId}
    (closed : ∀ a b, Step a b → b ∈ unreached) (start m : ModuleId) :
    m ∈ reach step [start] unreached ↔ TransGen Step start m := by
  have within : Within Step unreached = Step := by
    funext a b
    exact propext (and_iff_left_of_imp (closed a b))
  rw [mem_reach_iff steps, within]
  simp

end Reach

variable (graph : ImportGraph)

/-- `b` imports from `a`. -/
def Rests (a b : ModuleId) : Prop := (b, a) ∈ graph.edges

theorem mem_importers (targets : List ModuleId) (m : ModuleId) :
    m ∈ graph.importers targets ↔ ∃ a ∈ targets, graph.Rests a m := by
  simp only [importers, List.mem_map, List.mem_filter, List.contains_iff_mem, Prod.exists, Rests]
  constructor
  · rintro ⟨_, target, ⟨edge, here⟩, rfl⟩
    exact ⟨target, here, edge⟩
  · rintro ⟨target, here, edge⟩
    exact ⟨m, target, ⟨edge, here⟩, rfl⟩

theorem mem_modules_of_mem_edges {importer target : ModuleId}
    (edge : (importer, target) ∈ graph.edges) :
    importer ∈ graph.modules ∧ target ∈ graph.modules := by
  rw [modules, List.mem_eraseDups, List.mem_eraseDups]
  exact ⟨List.mem_flatMap.mpr ⟨_, edge, by simp⟩, List.mem_flatMap.mpr ⟨_, edge, by simp⟩⟩

theorem mem_sort {ids : List ModuleId} {m : ModuleId} : m ∈ ModuleId.sort ids ↔ m ∈ ids :=
  List.mem_mergeSort

/-- The modules that rest on a module are those from which a chain of imports leads to it. -/
theorem mem_invalidation_iff {m r : ModuleId} :
    r ∈ graph.invalidation m ↔ TransGen graph.Rests m r := by
  rw [invalidation, mem_sort, mem_reach_iff_of_closed graph.mem_importers]
  exact fun _ _ edge => (graph.mem_modules_of_mem_edges edge).1

theorem mem_edges_add {importer target : ModuleId} {edge : ModuleId × ModuleId} :
    edge ∈ (graph.add importer target).edges ↔
      edge ∈ graph.edges ∨ edge = (importer, target) := by
  rw [add]
  split
  · rename_i known
    refine (or_iff_left_of_imp ?_).symm
    rintro rfl
    exact List.contains_iff_mem.mp known
  · rw [List.mem_append, List.mem_singleton]

end LetModules.ImportGraph
