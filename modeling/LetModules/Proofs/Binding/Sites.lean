import LetModules.Proofs.Scope.Locate
import LetModules.Resolution

/-!
What each site of an import comes to, one at a time. Resolving goes through the statements of a
module and their items and records one result for each (`sites_ofModule`), which depends on nothing
that was recorded before; so the result at a site can be read off its importer, its statement and
its item (`mem_bindings_iff`, `binding?_eq`).
-/

namespace LetModules

/-- What an item of an import statement comes to. -/
def Linked.result (linked : Linked) (importer : Module) (statement : ImportStatement)
    (item : ImportItem) : Except Problem Binding :=
  ((linked.target statement.path importer).bind fun target =>
    linked.bind item target importer).mapError
      fun cause => ⟨cause, item.span.or statement.span, importer.file⟩

/-- An item comes to a binding if its statement has a target and the item is bound there. -/
theorem Linked.result_eq_ok_iff {linked : Linked} {importer : Module}
    {statement : ImportStatement} {item : ImportItem} {b : Binding} :
    linked.result importer statement item = .ok b ↔ ∃ target,
      linked.target statement.path importer = .ok target ∧
        linked.bind item target importer = .ok b := by
  rw [result]
  cases linked.target statement.path importer with
  | error cause => simp [Except.bind, Except.mapError]
  | ok target =>
    cases bound : linked.bind item target importer <;>
      simp [Except.bind, Except.mapError, bound]

/-- What the items of a statement come to, in order. -/
def Linked.results (linked : Linked) (importer : Module) (statement : ImportStatement)
    (index : Nat) : List SiteResult :=
  statement.items.zipIdx.map fun (item, i) =>
    (⟨importer.id, index, i⟩, linked.result importer statement item)

namespace ModuleImports

variable (linked : Linked) (importer : Module)

theorem sites_recordBinding (imports : ModuleImports) (site : Site) (binding : Binding)
    (again : Problem) :
    (imports.recordBinding site binding again).sites = imports.sites ++ [(site, .ok binding)] := by
  rw [recordBinding, record]
  dsimp only
  split <;> rfl

theorem sites_addItem (statement : ImportStatement) (index : Nat) (imports : ModuleImports)
    (item : ImportItem × Nat) :
    (addItem linked importer statement index (linked.target statement.path importer) imports
      item).sites = imports.sites ++
        [(⟨importer.id, index, item.2⟩, linked.result importer statement item.1)] := by
  rw [addItem.eq_def, Linked.result]
  cases linked.target statement.path importer with
  | error cause => rfl
  | ok target =>
    dsimp only [Except.bind]
    cases linked.bind item.1 target importer with
    | error cause => rfl
    | ok binding => exact sites_recordBinding ..

/-- A fold that appends to the sites with each entry appends all that it appends, in order. -/
theorem sites_foldl {add : ModuleImports → α → ModuleImports} {g : α → List SiteResult}
    (one : ∀ imports a, (add imports a).sites = imports.sites ++ g a) :
    ∀ (entries : List α) (imports : ModuleImports),
      (entries.foldl add imports).sites = imports.sites ++ entries.flatMap g
  | [], _ => by rw [List.foldl_nil, List.flatMap_nil, List.append_nil]
  | a :: rest, imports => by
    rw [List.foldl_cons, sites_foldl one rest, one, List.flatMap_cons, List.append_assoc]

theorem sites_addStatement (imports : ModuleImports) (statement : ImportStatement × Nat) :
    (addStatement linked importer imports statement).sites =
      imports.sites ++ linked.results importer statement.1 statement.2 := by
  have items := sites_foldl (sites_addItem linked importer statement.1 statement.2)
    statement.1.items.zipIdx
  rw [addStatement, Linked.results, List.map_eq_flatMap]
  dsimp only
  rw [items]
  congr 1
  split <;> rfl

/-- The sites of a module are the items of its statements, in source order. -/
theorem sites_ofModule : (ofModule linked importer).sites =
    importer.imports.zipIdx.flatMap fun (statement, i) => linked.results importer statement i := by
  rw [ofModule, sites_foldl (sites_addStatement linked importer)]
  rfl

/-- A site of a module is told by the places of a statement and of an item in it. -/
theorem mem_sites_ofModule_iff {site : Site} {result : Except Problem Binding} :
    (site, result) ∈ (ofModule linked importer).sites ↔ ∃ statement item,
      site.module = importer.id ∧ importer.imports[site.statement]? = some statement ∧
        statement.items[site.item]? = some item ∧
          result = linked.result importer statement item := by
  rw [sites_ofModule, List.mem_flatMap]
  simp only [Linked.results, List.mem_map, Prod.exists, List.mem_zipIdx_iff_getElem?, Prod.mk.injEq]
  constructor
  · rintro ⟨statement, i, hs, item, j, hi, rfl, rfl⟩
    exact ⟨statement, item, rfl, hs, hi, rfl⟩
  · rintro ⟨statement, item, same, hs, hi, rfl⟩
    exact ⟨statement, site.statement, hs, item, site.item, hi, by rw [← same], rfl⟩

end ModuleImports

namespace Resolution

variable (settings : Settings) (sources : List PackageSource)

theorem sound_ofSources : (ofSources settings sources).toScope.Sound :=
  Scope.sound_ofSources settings sources

/-- The results are those of the modules, one after the other. -/
theorem bindings_ofGrowth (growth : Growth) (registry : Registry) :
    let r := ofGrowth settings growth registry
    r.bindings = r.tree.modules.flatMap fun m => (ModuleImports.ofModule r.toLinked m).sites :=
  List.flatMap_map ..

theorem bindings_eq : (ofSources settings sources).bindings =
    (ofSources settings sources).tree.modules.flatMap fun m =>
      (ModuleImports.ofModule (ofSources settings sources).toLinked m).sites :=
  bindings_ofGrowth settings _ _

/-- There is a result for each item of each statement of each module, and for nothing else. -/
theorem mem_bindings_iff {site : Site} {result : Except Problem Binding} :
    (site, result) ∈ (ofSources settings sources).bindings ↔
      ∃ importer ∈ (ofSources settings sources).tree.modules, ∃ statement item,
        site.module = importer.id ∧ importer.imports[site.statement]? = some statement ∧
          statement.items[site.item]? = some item ∧
            result = (ofSources settings sources).toLinked.result importer statement item := by
  simp only [bindings_eq, List.mem_flatMap, ModuleImports.mem_sites_ofModule_iff]

/-- The result at a site of a module. -/
theorem binding?_eq {importer : Module}
    (mem : importer ∈ (ofSources settings sources).tree.modules) (i j : Nat) :
    (ofSources settings sources).binding? ⟨importer.id, i, j⟩ =
      importer.imports[i]?.bind fun statement => statement.items[j]?.map fun item =>
        (ofSources settings sources).toLinked.result importer statement item := by
  have sound := sound_ofSources settings sources
  ext result
  simp only [binding?, Option.map_eq_some_iff, Option.bind_eq_some_iff]
  constructor
  · rintro ⟨⟨site, _⟩, found, rfl⟩
    obtain rfl : site = ⟨importer.id, i, j⟩ := by simpa using List.find?_some found
    obtain ⟨other, there, statement, item, same, hs, hi, rfl⟩ :=
      (mem_bindings_iff settings sources).mp (List.mem_of_find?_eq_some found)
    obtain rfl := sound.tree.module_inj mem there same
    exact ⟨statement, hs, item, hi, rfl⟩
  · rintro ⟨statement, hs, item, hi, rfl⟩
    have listed : (⟨importer.id, i, j⟩, _) ∈ (ofSources settings sources).bindings :=
      (mem_bindings_iff settings sources).mpr
        ⟨importer, mem, statement, item, rfl, hs, hi, rfl⟩
    have isSome : ((ofSources settings sources).bindings.find?
        (·.1 = ⟨importer.id, i, j⟩)).isSome := List.find?_isSome.mpr ⟨_, listed, by simp⟩
    obtain ⟨⟨site, _⟩, found⟩ := Option.isSome_iff_exists.mp isSome
    refine ⟨_, found, ?_⟩
    -- whatever is found has this importer, statement and item
    obtain rfl : site = ⟨importer.id, i, j⟩ := by simpa using List.find?_some found
    obtain ⟨other, there, statement', item', same, hs', hi', rfl⟩ :=
      (mem_bindings_iff settings sources).mp (List.mem_of_find?_eq_some found)
    obtain rfl := sound.tree.module_inj mem there same
    obtain rfl := Option.some.inj (hs.symm.trans hs')
    obtain rfl := Option.some.inj (hi.symm.trans hi')
    rfl

end Resolution

end LetModules
