import LetModules.Proofs.Binding.Account

/-!
The balance of a module's imports. Failures of statements, failures of items and repeated names are
reported by three different steps while the items are gone through, and a statement that fails is
reported once for all its items. In the end every item has been listed once, in the order of the
source, and the problems can be counted off: the statements without a target, the items that are not
bound where theirs leads, and the bindings beyond one for each local name (`balanced_ofModule`). The
listings of all modules together are the table of the resolution (`balanced_imports`).
-/

namespace LetModules

/-- Strictly before, by statement and then by item. -/
def Site.Before (a b : Site) : Prop :=
  a.statement < b.statement ∨ a.statement = b.statement ∧ a.item < b.item

/-- A module has an item at the site. -/
def Module.HasSite (m : Module) (site : Site) : Prop :=
  site.module = m.id ∧
    ∃ statement, m.imports[site.statement]? = some statement ∧ site.item < statement.items.length

/-- Whatever is ordered strictly has no duplicates. -/
theorem Site.nodup_of_pairwise_before {sites : List Site} (ordered : sites.Pairwise Before) :
    sites.Nodup := by
  refine ordered.imp fun before => ?_
  rintro rfl
  obtain less | ⟨-, less⟩ := before <;> exact lt_irrefl _ less

namespace Linked

variable (linked : Linked) (importer : Module)

/-- The result for an item is the failure of its statement or, if that has a target, what binding
the item there comes to. -/
structure Answers (statement : ImportStatement) (item : ImportItem)
    (result : Except Problem Binding) : Prop where
  unlocated : ∀ cause, linked.target statement.path importer = .error cause →
    result = .error ⟨cause, item.span.or statement.span, importer.file⟩
  located : ∀ target, linked.target statement.path importer = .ok target →
    ∀ b, result = .ok b ↔ linked.bind item target importer = .ok b

/-- The statements without a target. -/
def unlocated : List ImportStatement :=
  importer.imports.filter fun statement => !(linked.target statement.path importer).isOk

/-- The items of a statement that are not bound where it leads. -/
def unbound (statement : ImportStatement) : List ImportItem :=
  match linked.target statement.path importer with
  | .error _ => []
  | .ok target => statement.items.filter fun item => !(linked.bind item target importer).isOk

variable {linked importer}

theorem answers_result (statement : ImportStatement) (item : ImportItem) :
    linked.Answers importer statement item (linked.result importer statement item) where
  unlocated cause lost := by
    rw [result, lost]
    rfl
  located target found b := by
    rw [result_eq_ok_iff, found]
    constructor
    · rintro ⟨_, same, bound⟩
      exact Except.ok.inj same ▸ bound
    · exact fun bound => ⟨target, rfl, bound⟩

/-- An item has a failure of its own if its statement leads somewhere and it is not bound there. -/
theorem length_itemFailures (statement : ImportStatement) :
    (statement.items.flatMap (linked.itemFailures importer statement)).length =
      (linked.unbound importer statement).length := by
  rw [unbound, List.length_flatMap]
  unfold itemFailures
  cases linked.target statement.path importer with
  | error cause => simp
  | ok target =>
    dsimp only
    induction statement.items with
    | nil => rfl
    | cons item rest ih =>
      rw [List.map_cons, List.sum_cons, ih, List.filter_cons]
      cases linked.bind item target importer <;>
        simp [Except.isOk, Except.toBool, Nat.add_comm]

/-- A statement fails once if it has no target, and once for each item that is not bound. -/
theorem length_failures (statement : ImportStatement) :
    (linked.failures importer statement).length =
      (if (linked.target statement.path importer).isOk then 0 else 1) +
        (linked.unbound importer statement).length := by
  rw [failures, List.length_append, length_itemFailures]
  cases linked.target statement.path importer <;> rfl

/-- All failures of a module. -/
theorem length_flatMap_failures : (importer.imports.flatMap (linked.failures importer)).length =
    (linked.unlocated importer).length +
      (importer.imports.flatMap (linked.unbound importer)).length := by
  rw [unlocated]
  induction importer.imports with
  | nil => rfl
  | cons statement rest ih =>
    rw [List.flatMap_cons, List.flatMap_cons, List.length_append, List.length_append, ih,
      length_failures, List.filter_cons]
    cases (linked.target statement.path importer).isOk <;> simp <;> omega

end Linked

namespace ModuleImports

/-- What was recorded about the imports of a module is in balance: the sites are its items in source
order, each with the right result, and the problems are as many as went wrong. -/
structure Balanced (linked : Linked) (importer : Module) (imports : ModuleImports) : Prop where
  increasing : (imports.sites.map (·.1)).Pairwise Site.Before
  every : ∀ site, site ∈ imports.sites.map (·.1) ↔ importer.HasSite site
  answers : ∀ site result, (site, result) ∈ imports.sites → ∃ statement item,
    importer.imports[site.statement]? = some statement ∧ statement.items[site.item]? = some item ∧
      linked.Answers importer statement item result
  /-- The bindings beyond one for each local name are reported, next to all that failed. -/
  count : imports.problems.length + (localNames imports.sites).dedup.length =
    (linked.unlocated importer).length +
      (importer.imports.flatMap (linked.unbound importer)).length +
        imports.sites.countP (·.2.isOk)

/-- There is a local name for each site that is bound. -/
theorem length_localNames (sites : List SiteResult) :
    (localNames sites).length = sites.countP (·.2.isOk) := by
  rw [localNames, List.length_map, List.length_filterMap_eq_countP]
  exact List.countP_congr fun entry _ => by cases entry.2 <;> rfl

variable (linked : Linked) (importer : Module)

theorem mem_map_results_iff {statement : ImportStatement} {index : Nat} {site : Site} :
    site ∈ (linked.results importer statement index).map (·.1) ↔
      site.module = importer.id ∧ site.statement = index ∧ site.item < statement.items.length := by
  simp only [Linked.results, List.map_map, List.mem_map, Function.comp_apply, Prod.exists,
    List.mem_zipIdx_iff_getElem?]
  constructor
  · rintro ⟨item, j, there, rfl⟩
    exact ⟨rfl, rfl, (List.getElem?_eq_some_iff.mp there).1⟩
  · obtain ⟨module, i, j⟩ := site
    rintro ⟨rfl, rfl, bound⟩
    exact ⟨statement.items[j], j, List.getElem?_eq_getElem bound, rfl⟩

/-- The items of one statement are listed in order. -/
theorem pairwise_results (statement : ImportStatement) (index : Nat) :
    ((linked.results importer statement index).map (·.1)).Pairwise Site.Before := by
  have places : ((linked.results importer statement index).map (·.1)).map (·.item) =
      List.range' 0 statement.items.length := by
    rw [Linked.results, List.map_map, List.map_map]
    exact List.zipIdx_map_snd ..
  have less : ((linked.results importer statement index).map (·.1)).Pairwise
      fun a b => a.item < b.item := by
    rw [← List.pairwise_map, places]
    exact List.pairwise_lt_range'
  refine less.imp_of_mem fun ha hb items => .inr ⟨?_, items⟩
  rw [((mem_map_results_iff linked importer).mp ha).2.1,
    ((mem_map_results_iff linked importer).mp hb).2.1]

/-- All items are listed in order. -/
theorem pairwise_sites_ofModule :
    ((ofModule linked importer).sites.map (·.1)).Pairwise Site.Before := by
  rw [sites_ofModule, List.map_flatMap, List.pairwise_flatMap]
  refine ⟨fun (statement, i) _ => pairwise_results linked importer statement i, ?_⟩
  have less : importer.imports.zipIdx.Pairwise fun a b => a.2 < b.2 := by
    rw [← List.pairwise_map, List.zipIdx_map_snd]
    exact List.pairwise_lt_range'
  refine less.imp fun statements a ha b hb => .inl ?_
  rw [((mem_map_results_iff linked importer).mp ha).2.1,
    ((mem_map_results_iff linked importer).mp hb).2.1]
  exact statements

theorem mem_map_sites_ofModule_iff {site : Site} :
    site ∈ (ofModule linked importer).sites.map (·.1) ↔ importer.HasSite site := by
  simp only [List.mem_map, Prod.exists, exists_and_right, exists_eq_right,
    mem_sites_ofModule_iff, Module.HasSite]
  constructor
  · rintro ⟨_, statement, item, same, hs, hi, -⟩
    exact ⟨same, statement, hs, (List.getElem?_eq_some_iff.mp hi).1⟩
  · rintro ⟨same, statement, hs, bound⟩
    exact ⟨_, statement, statement.items[site.item], same, hs, List.getElem?_eq_getElem bound, rfl⟩

/-- Resolving the imports of a module ends in balance. -/
theorem balanced_ofModule : Balanced linked importer (ofModule linked importer) where
  increasing := pairwise_sites_ofModule linked importer
  every site := mem_map_sites_ofModule_iff linked importer
  answers site result listed := by
    obtain ⟨statement, item, -, hs, hi, rfl⟩ := (mem_sites_ofModule_iff linked importer).mp listed
    exact ⟨statement, item, hs, hi, Linked.answers_result statement item⟩
  count := by
    have accounts := accounts_ofModule linked importer
    obtain ⟨again, perm, count⟩ := accounts.problems
    rw [accounts.perm_dedup.length_eq, length_localNames] at count
    rw [perm.length_eq, List.length_append, Linked.length_flatMap_failures]
    omega

end ModuleImports

namespace Resolution

/-- The table of a resolution has one entry for each item of each module, and these are the entries
that the modules have for themselves. -/
structure OneEntryEach (r : Resolution) : Prop where
  distinct : (r.bindings.map (·.1)).Nodup
  every : ∀ site, site ∈ r.bindings.map (·.1) ↔ ∃ m ∈ r.tree.modules, m.HasSite site
  own : ∀ m ∈ r.tree.modules, ∀ entry ∈ (ModuleImports.ofModule r.toLinked m).sites,
    entry ∈ r.bindings

/-- A finished tree has one entry for each item, whatever the registry. -/
theorem oneEntryEach_ofGrowth (settings : Settings) {growth : Growth} (sound : growth.tree.Sound)
    (registry : Registry) : (ofGrowth settings growth registry).OneEntryEach := by
  let r := ofGrowth settings growth registry
  have bindings := bindings_ofGrowth settings growth registry
  have keys : r.bindings.map (·.1) =
      r.tree.modules.flatMap fun m => (ModuleImports.ofModule r.toLinked m).sites.map (·.1) := by
    rw [bindings, List.map_flatMap]
  have listed : ∀ {m : Module} {site : Site},
      site ∈ (ModuleImports.ofModule r.toLinked m).sites.map (·.1) ↔ m.HasSite site :=
    ModuleImports.mem_map_sites_ofModule_iff r.toLinked _
  refine ⟨?_, fun site => ?_, fun m hm entry there => ?_⟩
  · -- the sites of one module are in order, those of two modules have different identifiers
    rw [keys, List.nodup_flatMap]
    refine ⟨fun m _ => Site.nodup_of_pairwise_before
      (ModuleImports.pairwise_sites_ofModule r.toLinked m), ?_⟩
    refine sound.nodup_modules.imp_of_mem fun {m k} hm hk differ site ofM ofK => differ ?_
    exact sound.module_inj hm hk ((listed.mp ofM).1.symm.trans (listed.mp ofK).1)
  · rw [keys, List.mem_flatMap]
    exact exists_congr fun m => and_congr_right fun _ => listed
  · exact bindings ▸ List.mem_flatMap.mpr ⟨m, hm, there⟩

/-- Every module of a finished tree comes out in balance, whatever there is to import from, and so
does the table of all of them. -/
theorem balanced_imports (sources : List PackageSource) (registry : Registry) :
    (∀ (pairings : Pairings) (exports : Exports) (importer : Module),
      let linked : Linked := ⟨⟨(Growth.ofSources sources).tree, registry, pairings⟩, exports⟩
      ModuleImports.Balanced linked importer (.ofModule linked importer)) ∧
    ∀ settings, (ofGrowth settings (Growth.ofSources sources) registry).OneEntryEach :=
  ⟨fun _ _ importer => ModuleImports.balanced_ofModule _ importer,
    fun settings => oneEntryEach_ofGrowth settings (Growth.sound_ofSources sources) registry⟩

end Resolution

end LetModules
