import LetModules.Proofs.Binding.Sites
import Mathlib.Data.List.Dedup

/-!
What is reported about imports. Each statement without a target is reported once, however many items
it has; so is each item of another statement that is not bound, and each local name as often as it
is bound again (`accounts_ofModule`). So nothing is reported about a module if and only if all its
statements have targets and all its items are bound, to different local names
(`problems_ofModule_eq_nil_iff`).
-/

namespace LetModules

/-- If all entries but one contribute nothing, that one contributes everything. -/
theorem flatMap_eq_of_mem {f : α → List β} {entries : List α} (distinct : entries.Nodup) {a : α}
    (mem : a ∈ entries) (others : ∀ b ∈ entries, b ≠ a → f b = []) : entries.flatMap f = f a := by
  obtain ⟨before, after, rfl⟩ := List.append_of_mem mem
  obtain ⟨fresh, -⟩ := List.nodup_cons.mp (List.nodup_middle.mp distinct)
  have nothing : ∀ b, b ∈ before ++ after → f b = [] := fun b hb =>
    others b (List.mem_append.mpr ((List.mem_append.mp hb).imp_right (List.mem_cons_of_mem a)))
      fun same => fresh (same ▸ hb)
  rw [List.flatMap_append, List.flatMap_cons,
    List.flatMap_eq_nil_iff.mpr fun b hb => nothing b (List.mem_append_left _ hb),
    List.flatMap_eq_nil_iff.mpr fun b hb => nothing b (List.mem_append_right _ hb),
    List.nil_append, List.append_nil]

namespace Linked

variable {linked : Linked} {importer : Module}

/-- The problem of an item that is not bound where its statement imports from. -/
def itemFailures (linked : Linked) (importer : Module) (statement : ImportStatement)
    (item : ImportItem) : List Problem :=
  match linked.target statement.path importer with
  | .error _ => []
  | .ok target =>
    match linked.bind item target importer with
    | .error cause => [⟨cause, item.span.or statement.span, importer.file⟩]
    | .ok _ => []

/-- The problems of a statement: its own if it has no target, and those of its items. -/
def failures (linked : Linked) (importer : Module) (statement : ImportStatement) : List Problem :=
  (match linked.target statement.path importer with
    | .error cause => [⟨cause, statement.path.span.or statement.span, importer.file⟩]
    | .ok _ => []) ++ statement.items.flatMap (linked.itemFailures importer statement)

/-- A statement does not fail if it has a target and each item is bound to something there. -/
theorem failures_eq_nil_iff {statement : ImportStatement} :
    linked.failures importer statement = [] ↔
      (∃ target, linked.target statement.path importer = .ok target) ∧
        ∀ item ∈ statement.items, ∃ b, linked.result importer statement item = .ok b := by
  simp only [result_eq_ok_iff, failures, List.append_eq_nil_iff, List.flatMap_eq_nil_iff,
    itemFailures]
  cases linked.target statement.path importer with
  | error cause => simp
  | ok target =>
    simp only [Except.ok.injEq, exists_eq', true_and, exists_eq_left']
    refine forall₂_congr fun item _ => ?_
    cases linked.bind item target importer <;> simp

end Linked

namespace ModuleImports

/-- The local names that are bound at the sites, in order. -/
def localNames (sites : List SiteResult) : List String :=
  (sites.filterMap (·.2.toOption)).map (·.localName)

/-- The problems are those in `failed` and one for each time a local name was bound again. -/
structure Accounts (failed : List Problem) (imports : ModuleImports) : Prop where
  distinct : imports.bound.Nodup
  bound : ∀ name, name ∈ imports.bound ↔ name ∈ localNames imports.sites
  problems : ∃ again, imports.problems.Perm (failed ++ again) ∧
    again.length + imports.bound.length = (localNames imports.sites).length

namespace Accounts

variable {failed : List Problem} {imports : ModuleImports}

theorem report (accounts : Accounts failed imports) (problem : Problem) :
    Accounts (failed ++ [problem]) (imports.report problem) where
  distinct := accounts.distinct
  bound := accounts.bound
  problems := by
    obtain ⟨again, perm, count⟩ := accounts.problems
    refine ⟨again, (perm.append_right [problem]).trans ?_, count⟩
    rw [List.append_assoc, List.append_assoc]
    exact List.perm_append_comm.append_left failed

theorem record (accounts : Accounts failed imports) (site : Site) (problem : Problem) :
    Accounts failed (imports.record site (.error problem)) := by
  have same : localNames (imports.record site (.error problem)).sites =
      localNames imports.sites := by
    simp [localNames, ModuleImports.record, Except.toOption]
  exact ⟨accounts.distinct, same ▸ accounts.bound, same ▸ accounts.problems⟩

theorem recordBinding (accounts : Accounts failed imports) (site : Site) (binding : Binding)
    (again : Problem) : Accounts failed (imports.recordBinding site binding again) := by
  have names : localNames (imports.recordBinding site binding again).sites =
      localNames imports.sites ++ [binding.localName] := by
    rw [sites_recordBinding]
    simp [localNames, Except.toOption]
  have known : imports.bound.contains binding.localName = true ↔
      binding.localName ∈ localNames imports.sites := by
    rw [List.contains_iff_mem, accounts.bound]
  obtain ⟨earlier, perm, count⟩ := accounts.problems
  by_cases repeated : imports.bound.contains binding.localName = true
  · -- the name is reported, and bound already
    have after : imports.recordBinding site binding again =
        (imports.report again).record site (.ok binding) := by
      rw [ModuleImports.recordBinding, if_pos repeated]
    refine ⟨after ▸ accounts.distinct, fun name => ?_, ?_⟩
    · rw [names, after]
      simp only [List.mem_append, List.mem_singleton]
      exact (accounts.bound name).trans
        ⟨.inl, fun h => h.elim id fun same => same ▸ known.mp repeated⟩
    · rw [names, after]
      refine ⟨earlier ++ [again], ?_, ?_⟩
      · rw [← List.append_assoc]
        exact perm.append_right [again]
      · simp only [ModuleImports.record, ModuleImports.report, List.length_append,
          List.length_singleton]
        omega
  · -- the name is new
    have after : imports.recordBinding site binding again =
        { imports with bound := binding.localName :: imports.bound }.record site (.ok binding) := by
      rw [ModuleImports.recordBinding, if_neg repeated]
    refine ⟨?_, fun name => ?_, ?_⟩
    · rw [after]
      exact List.nodup_cons.mpr
        ⟨fun there => repeated (List.contains_iff_mem.mpr there), accounts.distinct⟩
    · rw [names, after, List.mem_append, List.mem_singleton, ← accounts.bound, or_comm]
      exact List.mem_cons
    · rw [names, after]
      refine ⟨earlier, perm, ?_⟩
      simp only [ModuleImports.record, List.length_append, List.length_cons, List.length_nil]
      omega

variable (linked : Linked) (importer : Module)

/-- Recording an item adds its failures. -/
theorem addItem (statement : ImportStatement) (index : Nat) (accounts : Accounts failed imports)
    (item : ImportItem × Nat) :
    Accounts (failed ++ linked.itemFailures importer statement item.1)
      (ModuleImports.addItem linked importer statement index
        (linked.target statement.path importer) imports item) := by
  rw [ModuleImports.addItem.eq_def, Linked.itemFailures]
  cases linked.target statement.path importer with
  | error cause =>
    rw [List.append_nil]
    exact accounts.record ..
  | ok target =>
    dsimp only
    cases linked.bind item.1 target importer with
    | error cause => exact (accounts.report _).record ..
    | ok binding =>
      rw [List.append_nil]
      exact accounts.recordBinding ..

/-- A fold that adds the failures of each entry adds those of all entries. -/
theorem foldl {add : ModuleImports → α × Nat → ModuleImports} {g : α → List Problem}
    (one : ∀ {failed imports}, Accounts failed imports →
      ∀ entry, Accounts (failed ++ g entry.1) (add imports entry)) :
    ∀ (entries : List α) (start : Nat) {failed : List Problem} {imports : ModuleImports},
      Accounts failed imports →
        Accounts (failed ++ entries.flatMap g) ((entries.zipIdx start).foldl add imports)
  | [], _, _, _, accounts => by
    rw [List.flatMap_nil, List.append_nil]
    exact accounts
  | a :: rest, start, _, _, accounts => by
    rw [List.flatMap_cons, ← List.append_assoc]
    exact foldl one rest (start + 1) (one accounts (a, start))

/-- Recording a statement adds its failures. -/
theorem addStatement (accounts : Accounts failed imports) (statement : ImportStatement × Nat) :
    Accounts (failed ++ linked.failures importer statement.1)
      (ModuleImports.addStatement linked importer imports statement) := by
  have items := fun {failed imports} (accounts : Accounts failed imports) =>
    foldl (fun accounts => accounts.addItem linked importer statement.1 statement.2)
      statement.1.items 0 accounts
  rw [ModuleImports.addStatement, Linked.failures, ← List.append_assoc]
  refine items ?_
  cases linked.target statement.1.path importer with
  | error cause => exact accounts.report _
  | ok target =>
    rw [List.append_nil]
    exact accounts

/-- The names that have been bound are the different ones among the local names. -/
theorem perm_dedup (accounts : Accounts failed imports) :
    imports.bound.Perm (localNames imports.sites).dedup :=
  (List.perm_ext_iff_of_nodup accounts.distinct (List.nodup_dedup _)).mpr fun name => by
    rw [accounts.bound, List.mem_dedup]

/-- Nothing is reported if nothing failed and no local name was bound twice. -/
theorem problems_eq_nil_iff (accounts : Accounts failed imports) :
    imports.problems = [] ↔ failed = [] ∧ (localNames imports.sites).Nodup := by
  obtain ⟨again, perm, count⟩ := accounts.problems
  have full : (localNames imports.sites).dedup.length = (localNames imports.sites).length ↔
      (localNames imports.sites).Nodup := by
    rw [← List.dedup_eq_self]
    exact ⟨(List.dedup_sublist _).eq_of_length, congrArg _⟩
  rw [accounts.perm_dedup.length_eq] at count
  rw [← List.perm_nil, perm.congr_left, List.perm_nil, List.append_eq_nil_iff, ← full]
  refine and_congr_right fun _ => ?_
  rw [← List.length_eq_zero_iff]
  omega

end Accounts

variable (linked : Linked) (importer : Module)

/-- What is reported about the imports of a module are the failures of its statements, and the local
names that are bound again. -/
theorem accounts_ofModule :
    Accounts (importer.imports.flatMap (linked.failures importer)) (ofModule linked importer) := by
  have start : Accounts [] empty :=
    ⟨List.nodup_nil, fun name => by simp [empty, localNames], [], .refl _, rfl⟩
  have run := Accounts.foldl (fun accounts => accounts.addStatement linked importer)
    importer.imports 0 start
  rwa [List.nil_append] at run

/-- What holds of the results at the sites holds of what each item comes to. -/
theorem forall_results_iff (p : Except Problem Binding → Prop) :
    (∀ entry ∈ (ofModule linked importer).sites, p entry.2) ↔
      ∀ statement ∈ importer.imports, ∀ item ∈ statement.items,
        p (linked.result importer statement item) := by
  constructor
  · intro all statement hs item hi
    obtain ⟨i, hs⟩ := List.mem_iff_getElem?.mp hs
    obtain ⟨j, hi⟩ := List.mem_iff_getElem?.mp hi
    exact all (⟨importer.id, i, j⟩, _) ((mem_sites_ofModule_iff linked importer).mpr
      ⟨statement, item, rfl, hs, hi, rfl⟩)
  · rintro all ⟨site, result⟩ mem
    obtain ⟨statement, item, -, hs, hi, rfl⟩ := (mem_sites_ofModule_iff linked importer).mp mem
    exact all statement (List.mem_of_getElem? hs) item (List.mem_of_getElem? hi)

/-- Nothing is reported about a module if and only if its statements have targets, and its items are
bound, to different local names. -/
theorem problems_ofModule_eq_nil_iff : (ofModule linked importer).problems = [] ↔
    (∀ statement ∈ importer.imports, ∃ target,
      linked.target statement.path importer = .ok target) ∧
    (∀ entry ∈ (ofModule linked importer).sites, ∃ b, entry.2 = .ok b) ∧
    (localNames (ofModule linked importer).sites).Nodup := by
  rw [(accounts_ofModule linked importer).problems_eq_nil_iff, List.flatMap_eq_nil_iff,
    forall_results_iff linked importer fun result => ∃ b, result = .ok b, ← and_assoc]
  simp only [Linked.failures_eq_nil_iff, forall_and]

end ModuleImports

namespace Resolution

variable (settings : Settings) (sources : List PackageSource)

/-- The bindings of a module are those at its own sites. -/
theorem bindingsOf_eq {m : Module} (mem : m ∈ (ofSources settings sources).tree.modules) :
    (ofSources settings sources).bindingsOf m.id =
      (ModuleImports.ofModule (ofSources settings sources).toLinked m).sites.filterMap
        (·.2.toOption) := by
  have sound := sound_ofSources settings sources
  have own : ∀ k : Module,
      ∀ entry ∈ (ModuleImports.ofModule (ofSources settings sources).toLinked k).sites,
        entry.1.module = k.id := by
    rintro k ⟨site, result⟩ there
    obtain ⟨_, _, same, -⟩ := (ModuleImports.mem_sites_ofModule_iff _ k).mp there
    exact same
  rw [bindingsOf, bindings_eq, List.filterMap_flatMap,
    flatMap_eq_of_mem sound.tree.nodup_modules mem fun k hk differ => ?_]
  · exact List.filterMap_congr fun entry there => if_pos (own m entry there)
  · refine List.filterMap_eq_nil_iff.mpr fun entry there => if_neg ?_
    rw [own k entry there]
    exact fun same => differ (sound.tree.module_inj hk mem same)

end Resolution

end LetModules
