import LetModules.Proofs.Graph.Answers

/-!
The groups of modules that import each other. They agree with invalidation: a module is in a group if
it is resolved again with itself, and two modules are in one if each is resolved again with the other
(`cycleGroups_cycles`). So the groups are those strongly connected components of the graph that have
more than one member or an edge from their member to itself, however a component algorithm lists
them (`cyclesFrom_eq_cycles`).
-/

namespace LetModules.ImportGraph

open Relation (ReflTransGen TransGen)
open ModuleId (Increasing)

section Order

/-- A larger group comes before a smaller one, and of two of one size the one with the lesser ids, as
the first difference between them tells. -/
def Precedes (a b : List ModuleId) : Prop :=
  b.length < a.length ∨ a.length = b.length ∧ a.map (·.index) < b.map (·.index)

instance : Std.Asymm Precedes where
  asymm := by
    rintro a b (larger | ⟨even, less⟩) (larger' | ⟨even', less'⟩)
    · omega
    · omega
    · omega
    · exact lt_asymm less less'

theorem groupBefore_iff {a b : List ModuleId} : groupBefore a b = true ↔
    b.length < a.length ∨ a.length = b.length ∧ a.map (·.index) ≤ b.map (·.index) := by
  rw [groupBefore, Bool.or_eq_true, decide_eq_true_eq, Bool.and_eq_true, decide_eq_true_eq,
    Bool.not_eq_true', ← Bool.not_eq_true, List.lex_eq_true_iff_lt, not_lt]

theorem groupBefore_trans (a b c : List ModuleId) (hab : groupBefore a b = true)
    (hbc : groupBefore b c = true) : groupBefore a c = true := by
  rw [groupBefore_iff] at hab hbc ⊢
  rcases hab with hab | ⟨hab, ids⟩ <;> rcases hbc with hbc | ⟨hbc, ids'⟩
  · exact .inl (hbc.trans hab)
  · exact .inl (hbc ▸ hab)
  · exact .inl (hab ▸ hbc)
  · exact .inr ⟨hab.trans hbc, ids.trans ids'⟩

theorem groupBefore_total (a b : List ModuleId) : (groupBefore a b || groupBefore b a) = true := by
  rw [Bool.or_eq_true, groupBefore_iff, groupBefore_iff]
  rcases Nat.lt_trichotomy a.length b.length with less | same | more
  · exact .inr (.inl less)
  · rcases le_total (a.map (·.index)) (b.map (·.index)) with ids | ids
    · exact .inl (.inr ⟨same, ids⟩)
    · exact .inr (.inr ⟨same.symm, ids⟩)
  · exact .inl (.inl more)

/-- Sorting puts groups without repetitions in strict order. -/
theorem ordered_sort {groups : List (List ModuleId)} (distinct : groups.Nodup) :
    (groups.mergeSort groupBefore).Pairwise Precedes := by
  have ordered := List.pairwise_mergeSort groupBefore_trans groupBefore_total groups
  have distinct' := (List.mergeSort_perm groups groupBefore).nodup_iff.mpr distinct
  have told : Function.Injective ModuleId.index := fun ⟨_⟩ ⟨_⟩ same => congrArg _ same
  refine (ordered.and distinct').imp ?_
  rintro a b ⟨order, differ⟩
  refine (groupBefore_iff.mp order).imp_right fun both => ⟨both.1, ?_⟩
  exact lt_of_le_of_ne both.2 fun same => differ (List.map_injective_iff.mpr told same)

end Order

section Groups

variable {graph : ImportGraph}

theorem mem_modules_of_transGen {m n : ModuleId} (path : TransGen graph.Rests m n) :
    n ∈ graph.modules := by
  obtain ⟨_, -, last⟩ := TransGen.tail'_iff.mp path
  exact (graph.mem_modules_of_mem_edges last).1

theorem mem_foundation_iff {m n : ModuleId} :
    n ∈ graph.foundation m ↔ TransGen graph.Rests n m := by
  have turned : graph.converse.Rests = Function.swap graph.Rests := by
    funext a b
    exact propext graph.rests_converse
  rw [foundation, ← importers_converse, mem_reach_iff_of_closed graph.converse.mem_importers, turned,
    Relation.transGen_swap]
  intro a b edge
  exact (graph.mem_modules_of_mem_edges (graph.rests_converse.mp edge)).2

theorem mem_group_iff {m n : ModuleId} :
    n ∈ graph.group m ↔ TransGen graph.Rests m n ∧ TransGen graph.Rests n m := by
  rw [group, List.mem_filter, mem_invalidation_iff, List.contains_iff_mem, mem_foundation_iff]

/-- Two modules lead to each other if they are one or in one group. -/
theorem mutual_iff {m n : ModuleId} :
    ReflTransGen graph.Rests m n ∧ ReflTransGen graph.Rests n m ↔ n = m ∨ n ∈ graph.group m := by
  rw [Relation.reflTransGen_iff_eq_or_transGen, Relation.reflTransGen_iff_eq_or_transGen,
    eq_comm (a := m), ← or_and_left, mem_group_iff]

theorem increasing_group (m : ModuleId) : Increasing (graph.group m) :=
  (graph.increasing_invalidation m).filter _

/-- A group that has a member at all has the module that it is the group of. -/
theorem self_mem_group {m n : ModuleId} (mem : n ∈ graph.group m) : m ∈ graph.group m := by
  obtain ⟨there, back⟩ := mem_group_iff.mp mem
  exact mem_group_iff.mpr ⟨there.trans back, there.trans back⟩

/-- The members of a group all have that group. -/
theorem group_eq_of_mem {m n : ModuleId} (mem : n ∈ graph.group m) :
    graph.group n = graph.group m := by
  obtain ⟨there, back⟩ := mem_group_iff.mp mem
  refine (increasing_group n).eq_of_mem_iff (increasing_group m) fun k => ?_
  rw [mem_group_iff, mem_group_iff]
  exact ⟨fun ⟨on, off⟩ => ⟨there.trans on, off.trans back⟩,
    fun ⟨on, off⟩ => ⟨back.trans on, off.trans there⟩⟩

/-- The groups are those of the modules that have themselves in their group. -/
theorem mem_cycles_iff {g : List ModuleId} :
    g ∈ graph.cycles ↔ ∃ m, m ∈ graph.group m ∧ graph.group m = g := by
  simp only [cycles, List.mem_mergeSort, List.mem_eraseDups, List.mem_filter, List.mem_map,
    decide_eq_true_eq]
  constructor
  · rintro ⟨⟨m, -, rfl⟩, some_member⟩
    obtain ⟨n, mem⟩ := List.exists_mem_of_ne_nil _ some_member
    exact ⟨n, group_eq_of_mem mem ▸ mem, group_eq_of_mem mem⟩
  · rintro ⟨m, mem, rfl⟩
    exact ⟨⟨m, mem_modules_of_transGen (mem_group_iff.mp mem).1, rfl⟩, List.ne_nil_of_mem mem⟩

theorem ordered_cycles (graph : ImportGraph) : graph.cycles.Pairwise Precedes :=
  ordered_sort (nodup_eraseDups _)

/-- Groups that agree with invalidation, in their order. -/
structure CycleGroups (graph : ImportGraph) (groups : List (List ModuleId)) : Prop where
  /-- Exactly the modules that are resolved again with themselves are in a group. -/
  occurs : ∀ m, (∃ g ∈ groups, m ∈ g) ↔ m ∈ graph.invalidation m
  once : ∀ m, ∀ g ∈ groups, ∀ g' ∈ groups, m ∈ g → m ∈ g' → g = g'
  /-- Modules are in one group exactly if each is resolved again with the other. -/
  together : ∀ m n, (∃ g ∈ groups, m ∈ g ∧ n ∈ g) ↔
    m ∈ graph.invalidation n ∧ n ∈ graph.invalidation m
  increasing : ∀ g ∈ groups, Increasing g
  ordered : groups.Pairwise Precedes

theorem cycleGroups_cycles (graph : ImportGraph) : CycleGroups graph graph.cycles := by
  have back : ∀ m, m ∈ graph.group m ↔ m ∈ graph.invalidation m := by
    intro m
    rw [mem_group_iff, mem_invalidation_iff, and_self]
  -- the group of a member is the one that it is a member of
  have own : ∀ {m g}, g ∈ graph.cycles → m ∈ g → graph.group m = g := by
    intro m g hg mem
    obtain ⟨k, -, rfl⟩ := mem_cycles_iff.mp hg
    exact group_eq_of_mem mem
  constructor
  case occurs =>
    intro m
    rw [← back]
    constructor
    · rintro ⟨g, hg, mem⟩
      exact own hg mem ▸ mem
    · intro mem
      exact ⟨_, mem_cycles_iff.mpr ⟨m, mem, rfl⟩, mem⟩
  case once =>
    intro m g hg g' hg' mem mem'
    exact (own hg mem).symm.trans (own hg' mem')
  case together =>
    intro m n
    rw [mem_invalidation_iff, mem_invalidation_iff, and_comm, ← mem_group_iff]
    constructor
    · rintro ⟨g, hg, mem, mem'⟩
      exact own hg mem ▸ mem'
    · intro mem
      have itself := self_mem_group mem
      exact ⟨_, mem_cycles_iff.mpr ⟨m, itself, rfl⟩, itself, mem⟩
  case increasing =>
    intro g hg
    obtain ⟨m, -, rfl⟩ := mem_cycles_iff.mp hg
    exact increasing_group m
  case ordered => exact ordered_cycles graph

/-- The groups depend on the edges as a set. -/
theorem cycles_eq_of_rests {other : ImportGraph} (rests : graph.Rests = other.Rests) :
    graph.cycles = other.cycles := by
  have groups : graph.group = other.group := by
    funext m
    refine (increasing_group m).eq_of_mem_iff (increasing_group m) fun n => ?_
    rw [mem_group_iff, mem_group_iff, rests]
  refine (ordered_cycles graph).eq_of_mem_iff (ordered_cycles other) fun g => ?_
  rw [mem_cycles_iff, mem_cycles_iff, groups]

end Groups

section Components

/-- The lists are the strongly connected components of the graph, each once; their order and that of
their members is open. -/
structure Components (graph : ImportGraph) (components : List (List ModuleId)) : Prop where
  nonempty : [] ∉ components
  distinct : components.flatten.Nodup
  covers : ∀ m ∈ graph.modules, ∃ c ∈ components, m ∈ c
  /-- What is in a component with a module leads to it and back. -/
  connected : ∀ c ∈ components, ∀ m ∈ c, ∀ n,
    n ∈ c ↔ ReflTransGen graph.Rests m n ∧ ReflTransGen graph.Rests n m

/-- A component counts as a cycle if it has several members, or one that imports from itself. -/
def isCycle (graph : ImportGraph) (component : List ModuleId) : Bool :=
  1 < component.length || component.head?.any fun m => graph.edges.contains (m, m)

/-- The groups made from the components of a graph. -/
def cyclesFrom (graph : ImportGraph) (components : List (List ModuleId)) : List (List ModuleId) :=
  ((components.filter graph.isCycle).map ModuleId.sort).mergeSort groupBefore

variable {graph : ImportGraph} {components : List (List ModuleId)}

namespace Components

variable (strong : graph.Components components)

include strong

theorem mem_iff {c : List ModuleId} (hc : c ∈ components) {m : ModuleId} (hm : m ∈ c)
    (n : ModuleId) : n ∈ c ↔ n = m ∨ n ∈ graph.group m :=
  (strong.connected c hc m hm n).trans mutual_iff

/-- A component counts as a cycle if its members have groups. -/
theorem isCycle_iff {c : List ModuleId} (hc : c ∈ components) {m : ModuleId} (hm : m ∈ c) :
    graph.isCycle c = true ↔ m ∈ graph.group m := by
  have distinct := (List.nodup_flatten.mp strong.distinct).1 c hc
  by_cases single : c = [m]
  · -- the first step of a path back to `m` is one from `m` to `m`
    subst single
    have loop : graph.isCycle [m] = true ↔ graph.Rests m m := by simp [isCycle, Rests]
    rw [loop, mem_group_iff, and_self]
    constructor
    · exact .single
    · intro back
      obtain ⟨k, first, rest⟩ := TransGen.head'_iff.mp back
      have hk := (strong.connected _ hc m hm k).mpr ⟨.single first, rest⟩
      rwa [List.mem_singleton.mp hk] at first
  · -- another member is in the group of `m`
    have some_other := (distinct.ne_singleton_iff m).mp single
    obtain ⟨n, hn, differ⟩ := some_other.resolve_left (List.ne_nil_of_mem hm)
    have several : 1 < c.length := by
      rcases c with _ | ⟨a, _ | ⟨b, rest⟩⟩
      · exact absurd hm List.not_mem_nil
      · exact absurd (congrArg ([·]) (List.mem_singleton.mp hm).symm) single
      · simp
    have grouped := ((strong.mem_iff hc hm n).mp hn).resolve_left differ
    exact iff_of_true (by simp [isCycle, several]) (self_mem_group grouped)

theorem sort_eq_group {c : List ModuleId} (hc : c ∈ components) {m : ModuleId} (hm : m ∈ c)
    (grouped : m ∈ graph.group m) : ModuleId.sort c = graph.group m := by
  have distinct := (List.nodup_flatten.mp strong.distinct).1 c hc
  refine (ModuleId.increasing_sort distinct).eq_of_mem_iff (increasing_group m) fun n => ?_
  rw [mem_sort, strong.mem_iff hc hm]
  exact or_iff_right_of_imp fun same => same ▸ grouped

theorem ordered_cyclesFrom : (graph.cyclesFrom components).Pairwise Precedes := by
  have apart := (List.nodup_flatten.mp strong.distinct).2
  refine ordered_sort (List.pairwise_map.mpr ((apart.filter _).imp_of_mem ?_))
  intro c d hc _ disjoint same
  obtain ⟨m, hm⟩ := List.exists_mem_of_ne_nil c fun empty =>
    strong.nonempty (empty ▸ (List.mem_filter.mp hc).1)
  exact disjoint hm (mem_sort.mp (same ▸ mem_sort.mpr hm))

theorem mem_cyclesFrom_iff {g : List ModuleId} :
    g ∈ graph.cyclesFrom components ↔ ∃ m, m ∈ graph.group m ∧ graph.group m = g := by
  simp only [cyclesFrom, List.mem_mergeSort, List.mem_map, List.mem_filter]
  constructor
  · rintro ⟨c, ⟨hc, cycle⟩, rfl⟩
    obtain ⟨m, hm⟩ := List.exists_mem_of_ne_nil c fun empty => strong.nonempty (empty ▸ hc)
    have grouped := (strong.isCycle_iff hc hm).mp cycle
    exact ⟨m, grouped, (strong.sort_eq_group hc hm grouped).symm⟩
  · rintro ⟨m, grouped, rfl⟩
    have known := mem_modules_of_transGen (mem_group_iff.mp grouped).1
    obtain ⟨c, hc, hm⟩ := strong.covers m known
    exact ⟨c, ⟨hc, (strong.isCycle_iff hc hm).mpr grouped⟩, strong.sort_eq_group hc hm grouped⟩

/-- The components that count as cycles are the groups. -/
theorem cyclesFrom_eq_cycles : graph.cyclesFrom components = graph.cycles := by
  refine strong.ordered_cyclesFrom.eq_of_mem_iff (ordered_cycles graph) fun g => ?_
  rw [strong.mem_cyclesFrom_iff, mem_cycles_iff]

end Components

end Components

/-- The groups of modules that import each other agree with invalidation and come in a fixed order;
they are what a component algorithm makes of the graph, and depend on the imports that were recorded
as a set. -/
theorem cycles_agree_with_invalidation (imports : List (ModuleId × ModuleId)) :
    let graph := ofImports imports
    CycleGroups graph graph.cycles ∧
    (∀ components, graph.Components components → graph.cyclesFrom components = graph.cycles) ∧
    ∀ others, (∀ edge, edge ∈ imports ↔ edge ∈ others) →
      (ofImports others).cycles = graph.cycles := by
  intro graph
  refine ⟨cycleGroups_cycles graph, fun components strong => strong.cyclesFrom_eq_cycles, ?_⟩
  intro others same
  refine cycles_eq_of_rests ?_
  funext m n
  rw [rests_ofImports, rests_ofImports, same]

/-- In the graph of a mutual import, a module that imports from itself and one that imports from
another, the first two make up the groups. -/
theorem cycles_agree_with_invalidation_sample :
    let imports : List (ModuleId × ModuleId) :=
      [(⟨1⟩, ⟨2⟩), (⟨3⟩, ⟨3⟩), (⟨4⟩, ⟨1⟩), (⟨2⟩, ⟨1⟩)]
    let graph := ofImports imports
    let components : List (List ModuleId) := [[⟨4⟩], [⟨2⟩, ⟨1⟩], [⟨3⟩]]
    graph.Components components ∧ graph.cyclesFrom components = graph.cycles ∧
      graph.cycles = [[⟨1⟩, ⟨2⟩], [⟨3⟩]] ∧ (ofImports imports.reverse).cycles = graph.cycles := by
  intro imports graph components
  have one : graph.group ⟨1⟩ = [⟨1⟩, ⟨2⟩] := by cbv
  have two : graph.group ⟨2⟩ = [⟨1⟩, ⟨2⟩] := by cbv
  have three : graph.group ⟨3⟩ = [⟨3⟩] := by cbv
  have four : graph.group ⟨4⟩ = [] := by cbv
  have strong : graph.Components components := by
    refine ⟨by decide, by decide, by decide +kernel, fun c hc m hm n => ?_⟩
    rw [mutual_iff]
    simp only [components, List.mem_cons, List.not_mem_nil, or_false] at hc
    rcases hc with rfl | rfl | rfl <;> simp only [List.mem_cons, List.not_mem_nil, or_false] at hm
    · simp [hm, four]
    · rcases hm with rfl | rfl
      · simp only [two, List.mem_cons, List.not_mem_nil, or_false]
        tauto
      · simp [one, or_comm]
    · simp [hm, three]
  obtain ⟨-, made, recorded⟩ := cycles_agree_with_invalidation imports
  have groups : graph.cyclesFrom components = [[⟨1⟩, ⟨2⟩], [⟨3⟩]] := by cbv
  have same := made components strong
  exact ⟨strong, same, same ▸ groups, recorded _ fun _ => List.mem_reverse.symm⟩

end LetModules.ImportGraph
