import LetModules.Proofs.Binding.Found
import LetModules.Proofs.Binding.Sites
import LetModules.Proofs.Pairing
import LetModules.Proofs.Twin.Correspondence

/-!
What twins get to see. Their imports come to the same (`agree_result`), where the error causes are
compared as far as the correspondence compares those of lookups; only for the test that imports from
the module it tests do the private declarations of that module matter. And the lists of modules that
exist for them are the same (`map_nameOf_visibleModules`).
-/

namespace LetModules

/-- Bindings under one name, of copied declarations in twins. -/
structure Binding.Copied (Twin : Module → Module → Prop) (b b' : Binding) : Prop where
  localName : b.localName = b'.localName
  imported : b.imported = b'.imported
  declaration : LetModules.Copied Twin b.declaration b'.declaration
  via : LetModules.Copied Twin b.via b'.via
  target : Twin b.target b'.target
  span : b.span = b'.span

/-- The declarations have one header, and owners of one name. -/
structure Declaration.SameAs (S T : ModuleTree) (d e : Declaration) : Prop where
  header : d.toDeclarationHeader = e.toDeclarationHeader
  owner : (S.module? d.owner).map S.nameOf = (T.module? e.owner).map T.nameOf

/-- The exports publish the same declaration under one name, for the same origin. -/
structure Export.SameAs (S T : ModuleTree) (x y : Export) : Prop where
  name : x.name = y.name
  published : x.published.SameAs S T y.published
  origin : x.origin.SameAs S T y.origin

/-- The bindings bind one local name to the same declarations of the same module. -/
structure Binding.SameAs (S T : ModuleTree) (b b' : Binding) : Prop where
  localName : b.localName = b'.localName
  imported : b.imported = b'.imported
  declaration : b.declaration.SameAs S T b'.declaration
  via : b.via.SameAs S T b'.via
  target : S.nameOf b.target = T.nameOf b'.target
  span : b.span = b'.span

/-- By package name and then by path. -/
def ModuleName.inOrder (a b : ModuleName) : Bool :=
  a.package < b.package || (a.package = b.package && Text.inOrder a.path b.path)

namespace ModuleName

theorem inOrder_iff {a b : ModuleName} :
    inOrder a b = true ↔ a.package < b.package ∨
      a.package = b.package ∧ Text.inOrder a.path b.path = true := by
  rw [inOrder, Bool.or_eq_true, Bool.and_eq_true, decide_eq_true_eq, decide_eq_true_eq]

theorem inOrder_trans (a b c : ModuleName) (hab : inOrder a b = true) (hbc : inOrder b c = true) :
    inOrder a c = true := by
  rw [inOrder_iff] at hab hbc ⊢
  rcases hab with hab | ⟨hab, path⟩ <;> rcases hbc with hbc | ⟨hbc, path'⟩
  · exact .inl (lt_trans hab hbc)
  · exact .inl (hbc ▸ hab)
  · exact .inl (hab ▸ hbc)
  · exact .inr ⟨hab.trans hbc, Text.inOrder_trans path path'⟩

theorem inOrder_total (a b : ModuleName) : (inOrder a b || inOrder b a) = true := by
  rw [Bool.or_eq_true, inOrder_iff, inOrder_iff]
  rcases lt_trichotomy a.package b.package with less | same | more
  · exact .inl (.inl less)
  · rcases Text.inOrder_total a.path b.path with path | path
    · exact .inl (.inr ⟨same, path⟩)
    · exact .inr (.inr ⟨same.symm, path⟩)
  · exact .inr (.inl more)

theorem inOrder_antisymm {a b : ModuleName} (root : a.root = b.root) (hab : inOrder a b = true)
    (hba : inOrder b a = true) : a = b := by
  rw [inOrder_iff] at hab hba
  rcases hab with hab | ⟨package, path⟩
  · rcases hba with hba | ⟨package, -⟩
    · exact absurd hba (lt_asymm hab)
    · exact absurd hab (package ▸ lt_irrefl _)
  · rcases hba with hba | ⟨-, path'⟩
    · exact absurd hba (package ▸ lt_irrefl _)
    · cases a; cases b
      simp only [mk.injEq]
      exact ⟨package, root, Text.inOrder_antisymm path path'⟩

end ModuleName

/-- Sorting forgets the order of the entries, if no two of them tie. -/
theorem mergeSort_eq_of_perm {le : α → α → Bool}
    (trans : ∀ a b c, le a b = true → le b c = true → le a c = true)
    (total : ∀ a b, (le a b || le b a) = true) {l l' : List α} (perm : l.Perm l')
    (antisymm : ∀ a ∈ l, ∀ b ∈ l, le a b = true → le b a = true → a = b) :
    l.mergeSort le = l'.mergeSort le := by
  have both := ((List.mergeSort_perm l le).trans perm).trans (List.mergeSort_perm l' le).symm
  refine both.eq_of_pairwise (fun a b ha hb => ?_) (List.pairwise_mergeSort trans total l)
    (List.pairwise_mergeSort trans total l')
  exact antisymm a (List.mem_mergeSort.mp ha) b (perm.mem_iff.mpr (List.mem_mergeSort.mp hb))

/-- The modules that are listed are those that can be and exist. -/
theorem Scope.Sound.mem_visibleModules {scope : Scope} (sound : scope.Sound) {r m : Module}
    (hr : r ∈ scope.tree.modules) : m ∈ scope.linked.visibleModules r ↔
      scope.Listed r m ∧ scope.linked.hasModule m r = true := by
  have depends : scope.linked.registry.dependsOn r.package m.package = true ↔
      m.package ∈ scope.linked.registry.dependencies r.package := by
    rw [Registry.dependsOn, List.contains_iff_mem, Registry.dependencies, List.mem_map]
    constructor
    · exact fun edge => ⟨_, List.mem_filter.mpr ⟨edge, by simp⟩, rfl⟩
    · rintro ⟨⟨dependent, _⟩, edge, rfl⟩
      obtain ⟨there, same⟩ := List.mem_filter.mp edge
      obtain rfl := of_decide_eq_true same
      exact there
  have other : ∀ hm : m ∈ scope.tree.modules, m.id ≠ r.id ↔ m ≠ r := fun hm =>
    ⟨fun differ same => differ (same ▸ rfl),
      fun differ same => differ (sound.tree.module_inj hm hr same)⟩
  rw [Linked.visibleModules, List.mem_mergeSort, List.mem_filter, Linked.listable, List.mem_filter]
  refine and_congr_left fun _ => ?_
  simp only [Bool.and_eq_true, decide_eq_true_eq, Module.isProduction, Linked.reachablePackages,
    List.contains_iff_mem, List.mem_cons]
  constructor
  · rintro ⟨hm, ⟨root, package⟩, differ⟩
    exact ⟨hm, root, package.imp_right depends.mpr, (other hm).mp differ⟩
  · rintro ⟨hm, root, package, differ⟩
    exact ⟨hm, ⟨root, package.imp_right depends.mp⟩, (other hm).mpr differ⟩

/-- If related lists are searched for what the relation respects, what is found is related. -/
theorem rel_find? {R : α → β → Prop} {p : α → Bool} {q : β → Bool}
    (same : ∀ a b, R a b → p a = q b) {l : List α} {l' : List β} (related : List.Forall₂ R l l') :
    Option.Rel R (l.find? p) (l'.find? q) := by
  induction related with
  | nil => exact .none
  | @cons a b l l' head _ ih =>
    rw [List.find?_cons, List.find?_cons, same a b head]
    cases q b with
    | true => exact .some head
    | false => exact ih

/-- If two lists agree in their keys, entries with one key are related entry by entry. -/
theorem forall₂_of_map_eq {key : α → κ} {key' : β → κ} {R : α → β → Prop} {l : List α}
    {l' : List β} (keys : l.map key = l'.map key')
    (related : ∀ a ∈ l, ∀ b ∈ l', key a = key' b → R a b) : List.Forall₂ R l l' := by
  have all : List.Forall₂ R (l.filterMap some) (l'.filterMap some) :=
    forall₂_filterMap keys fun a ha b hb same => .some (related a ha b hb same)
  rwa [List.filterMap_some, List.filterMap_some] at all

/-- The target of a statement in one piece. -/
theorem Linked.target_eq (linked : Linked) (path : ModulePath) (importer : Module) :
    linked.target path importer = (linked.locate path importer).bind fun target =>
      if target.id = importer.id then .error (.selfImport (linked.tree.displayPath importer))
      else if linked.pairings.isPrivileged importer.id target.id || linked.hasModule target importer
        then .ok target
      else .error (linked.hidden target importer) := by
  rw [Linked.target, named]
  cases linked.locate path importer with
  | error cause => rfl
  | ok target =>
    dsimp only [Except.bind]
    by_cases same : target.id = importer.id
    · rw [if_pos same, if_pos same]
    · rw [if_neg same, if_neg same]

theorem Agree.imp {R R' : α → β → Prop} {seen : ε → γ} {seen' : ε → γ'} {x : Except ε α}
    {y : Except ε β} (h : Agree R seen x y) (related : ∀ a b, R a b → R' a b)
    (look : ∀ c c', seen c = seen c' → seen' c = seen' c') : Agree R' seen' x y :=
  match x, y, h with
  | .ok a, .ok b, h => related a b h
  | .error c, .error c', h => look c c' h

theorem Agree.bind {R : α → β → Prop} {R' : α' → β' → Prop} {seen : ε → γ}
    {f : α → Except ε α'} {g : β → Except ε β'} {x : Except ε α} {y : Except ε β}
    (h : Agree R seen x y) (next : ∀ a b, R a b → Agree R' seen (f a) (g b)) :
    Agree R' seen (x.bind f) (y.bind g) :=
  match x, y, h with
  | .ok a, .ok b, h => next a b h
  | .error _, .error _, h => h

theorem Agree.map {R : α → β → Prop} {R' : α' → β' → Prop} {seen : ε → γ} {f : α → α'}
    {g : β → β'} {x : Except ε α} {y : Except ε β} (h : Agree R seen x y)
    (next : ∀ a b, R a b → R' (f a) (g b)) : Agree R' seen (x.map f) (y.map g) :=
  match x, y, h with
  | .ok a, .ok b, h => next a b h
  | .error _, .error _, h => h

theorem Agree.mapError {R : α → β → Prop} {seen : ε → γ} {seen' : ε' → γ'} {f g : ε → ε'}
    {x : Except ε α} {y : Except ε β} (h : Agree R seen x y)
    (next : ∀ c c', seen c = seen c' → seen' (f c) = seen' (g c')) :
    Agree R seen' (x.mapError f) (y.mapError g) :=
  match x, y, h with
  | .ok _, .ok _, h => h
  | .error c, .error c', h => next c c' h

namespace Correspondence

variable {Twin : Module → Module → Prop} {seen : Cause → γ} {S T : Scope}

variable (c : Correspondence Twin seen S T)

include c

/-- Statements of twins have twins as targets. -/
theorem agree_target {r s : Module} (twin : Twin r s)
    (path : ModulePath) :
    Agree Twin seen (S.linked.target path r) (T.linked.target path s) := by
  rw [Linked.target_eq, Linked.target_eq]
  refine (c.locate twin path).bind fun m n targets => ?_
  have mine := c.displayPath_eq twin
  have its := c.displayPath_eq targets
  have self := c.id_eq_iff targets twin
  have there : (S.linked.pairings.isPrivileged r.id m.id || S.linked.hasModule m r) =
      (T.linked.pairings.isPrivileged s.id n.id || T.linked.hasModule n s) :=
    congrArg₂ _ (c.isPrivileged_eq targets twin) (c.hasModule_eq targets twin)
  by_cases same : m.id = r.id
  · rw [if_pos same, if_pos (self.mp same)]
    exact congrArg (fun path => seen (.selfImport path)) mine
  · rw [if_neg same, if_neg (mt self.mpr same), there]
    split
    · exact targets
    · exact congrArg₂ (fun target importer => seen (.notVisible none target importer none)) its mine

theorem accessible_eq {d e : Declaration} (copied : Copied Twin d e) {r s : Module}
    (requesters : Twin r s) : S.linked.accessible d r = T.linked.accessible e s := by
  have visible : S.linked.tree.visible d r = T.linked.tree.visible e s :=
    c.visible_eq copied requesters
  obtain ⟨m, n, twin, hd, he, -⟩ := copied
  obtain ⟨hm, hn⟩ := c.mem twin
  have mine : d.owner = m.id := c.left.tree.owner_eq hm hd
  have its : e.owner = n.id := c.right.tree.owner_eq hn he
  have privileged : S.linked.pairings.isPrivileged r.id m.id =
      T.linked.pairings.isPrivileged s.id n.id := c.isPrivileged_eq twin requesters
  rw [Linked.accessible, Linked.accessible, visible, mine, its, privileged]

/-- Twins export the same under a name to twins, or refuse it with the same cause. -/
theorem agree_exported {m n r s : Module} (targets : Twin m n) (requesters : Twin r s)
    (name : String) :
    Agree (fun x y => Copied Twin x.1 y.1 ∧ Copied Twin x.2 y.2) seen
      (S.linked.exported name m r) (T.linked.exported name n s) := by
  have exports := c.forall₂_ofModule targets
  have its := c.displayPath_eq targets
  have mine := c.displayPath_eq requesters
  have names : S.linked.exports.names S.linked.pairings m =
      T.linked.exports.names T.linked.pairings n :=
    map_eq_of_forall₂ (fun _ _ copied => copied.name) exports
  have found : Option.Rel (Export.Copied Twin)
      (S.linked.exports.lookup S.linked.pairings m name)
      (T.linked.exports.lookup T.linked.pairings n name) :=
    rel_find? (fun _ _ copied => by rw [copied.name]) exports
  rw [Linked.exported, Linked.exported, names]
  generalize S.linked.exports.lookup S.linked.pairings m name = x at found ⊢
  generalize T.linked.exports.lookup T.linked.pairings n name = y at found ⊢
  cases found with
  | none =>
    exact congrArg (fun target => seen (.notExported name target _)) its
  | @some x y copied =>
    have tier : x.published.tier = y.published.tier := by
      obtain ⟨-, -, -, -, -, same⟩ := copied.published
      rw [same]
    dsimp only
    rw [c.accessible_eq copied.published requesters, tier]
    split
    · exact ⟨copied.published, copied.origin⟩
    · exact congrArg₂ (fun target importer =>
        seen (.notVisible (some name) target importer (some y.published.tier))) its mine

/-- Twins with the same headers give the same to their tests. -/
theorem agree_privileged {m n : Module} (targets : Twin m n) (headers : m.headers = n.headers)
    (name : String) :
    Agree (fun x y => Copied Twin x.1 y.1 ∧ Copied Twin x.2 y.2) seen
      (S.linked.privileged name m) (T.linked.privileged name n) := by
  have its := c.displayPath_eq targets
  have names : m.declarations.map (·.name) = n.declarations.map (·.name) := by
    have same := congrArg (List.map (·.name)) headers
    rwa [Module.headers, Module.headers, List.map_map, List.map_map] at same
  have declared : List.Forall₂ (Copied Twin) m.declarations n.declarations := by
    refine forall₂_of_map_eq headers fun d hd e he same => ⟨m, n, targets, hd, he, same⟩
  have found : Option.Rel (Copied Twin) (m.declaration? name) (n.declaration? name) := by
    refine rel_find? (fun d e copied => ?_) declared
    obtain ⟨-, -, -, -, -, same⟩ := copied
    rw [same]
  have missing : seen (.notExported name (S.linked.tree.displayPath m)
      (m.declarations.map (·.name))) = seen (.notExported name (T.linked.tree.displayPath n)
        (n.declarations.map (·.name))) := by
    rw [names]
    exact congrArg (fun target => seen (.notExported name target _)) its
  rw [Linked.privileged, Linked.privileged]
  generalize m.declaration? name = x at found ⊢
  generalize n.declaration? name = y at found ⊢
  cases found with
  | none => exact missing
  | @some d e copied =>
    have origins := c.rel_originOf copied
    dsimp only
    generalize S.linked.exports.originOf d = x at origins ⊢
    generalize T.linked.exports.originOf e = y at origins ⊢
    cases origins with
    | none => exact missing
    | some last => exact ⟨copied, last⟩

/-- Items of twins are bound alike in twins; for a test that imports from the module it tests, if
that declares the same. -/
theorem agree_bind {m n r s : Module} (targets : Twin m n) (requesters : Twin r s)
    (headers : ⟨r, m⟩ ∈ S.pairings → m.headers = n.headers) (item : ImportItem) :
    Agree (Binding.Copied Twin) seen (S.linked.bind item m r) (T.linked.bind item n s) := by
  have privileged : S.linked.pairings.isPrivileged r.id m.id =
      T.linked.pairings.isPrivileged s.id n.id := c.isPrivileged_eq targets requesters
  have found : Agree (fun x y => Copied Twin x.1 y.1 ∧ Copied Twin x.2 y.2) seen
      (if S.linked.pairings.isPrivileged r.id m.id then S.linked.privileged item.name m
        else S.linked.exported item.name m r)
      (if T.linked.pairings.isPrivileged s.id n.id then T.linked.privileged item.name n
        else T.linked.exported item.name n s) := by
    rw [← privileged]
    split
    · rename_i test
      have paired := (c.left.isPrivileged_iff (c.mem requesters).1 (c.mem targets).1).mp test
      exact c.agree_privileged targets (headers paired) item.name
    · exact c.agree_exported targets requesters item.name
  exact found.map fun x y copied => ⟨rfl, rfl, copied.2, copied.1, targets, rfl⟩

/-- Sites of twins come to the same; those of a test that imports from the module it tests, if that
declares the same. -/
theorem agree_result {r s : Module} (twin : Twin r s) (statement : ImportStatement)
    (headers : ∀ m n, Twin m n → S.locate statement.path r = .ok m → ⟨r, m⟩ ∈ S.pairings →
      m.headers = n.headers) (item : ImportItem) :
    Agree (Binding.Copied Twin) (fun p : Problem => (seen p.cause, p.span, p.file))
      (S.linked.result r statement item) (T.linked.result s statement item) := by
  rw [Linked.result, Linked.result, (c.imports twin).2]
  refine Agree.mapError ?_ fun cause cause' same => congrArg (·, _, _) same
  have targets := c.agree_target twin statement.path
  have located : ∀ m, S.linked.target statement.path r = .ok m →
      S.locate statement.path r = .ok m := fun m found => (Linked.target_eq_ok_iff.mp found).1
  generalize S.linked.target statement.path r = x at targets located ⊢
  generalize T.linked.target statement.path s = y at targets ⊢
  rcases x with cause | m <;> rcases y with cause' | n
  · exact targets
  · exact targets.elim
  · exact targets.elim
  · exact c.agree_bind targets twin (fun paired => headers m n targets (located m rfl) paired) item

theorem sameAs_of_copied {d e : Declaration} (copied : Copied Twin d e) :
    d.SameAs S.tree T.tree e := by
  obtain ⟨m, n, twin, hd, he, same⟩ := copied
  obtain ⟨hm, hn⟩ := c.mem twin
  refine ⟨same, ?_⟩
  rw [c.left.tree.module?_owner hm hd, c.right.tree.module?_owner hn he]
  exact congrArg some (c.name twin)

theorem export_sameAs {x y : Export} (copied : x.Copied Twin y) : x.SameAs S.tree T.tree y :=
  ⟨copied.name, c.sameAs_of_copied copied.published, c.sameAs_of_copied copied.origin⟩

theorem binding_sameAs {b b' : Binding} (copied : b.Copied Twin b') :
    b.SameAs S.tree T.tree b' :=
  ⟨copied.localName, copied.imported, c.sameAs_of_copied copied.declaration,
    c.sameAs_of_copied copied.via, c.name copied.target, copied.span⟩

/-- The names of the modules that exist for twins are the same, in the same order. -/
theorem map_nameOf_visibleModules {r s : Module} (twin : Twin r s) :
    (S.linked.visibleModules r).map S.tree.nameOf = (T.linked.visibleModules s).map T.tree.nameOf
    := by
  obtain ⟨hr, hs⟩ := c.mem twin
  have sorted : ∀ {scope : Scope} {requester : Module},
      (scope.linked.visibleModules requester).map scope.tree.nameOf =
        (((scope.linked.listable requester).filter
          (scope.linked.hasModule · requester)).map scope.tree.nameOf).mergeSort
            ModuleName.inOrder := by
    intro scope requester
    exact List.map_mergeSort fun _ _ _ _ => rfl
  have listed : ∀ {scope : Scope} (sound : scope.Sound) {requester m : Module},
      requester ∈ scope.tree.modules →
        (m ∈ (scope.linked.listable requester).filter (scope.linked.hasModule · requester) ↔
          scope.Listed requester m ∧ scope.linked.hasModule m requester = true) := by
    intro scope sound requester m mem
    rw [← sound.mem_visibleModules mem, Linked.visibleModules, List.mem_mergeSort]
  have distinct : ∀ {scope : Scope} (sound : scope.Sound) {requester : Module},
      (((scope.linked.listable requester).filter
        (scope.linked.hasModule · requester)).map scope.tree.nameOf).Nodup := by
    intro scope sound requester
    refine List.Nodup.map_on (fun m hm n hn same => ?_)
      ((sound.tree.nodup_modules.filter _).filter _)
    exact sound.tree.nameOf_inj (List.mem_of_mem_filter (List.mem_of_mem_filter hm))
      (List.mem_of_mem_filter (List.mem_of_mem_filter hn)) same
  rw [sorted, sorted]
  refine mergeSort_eq_of_perm ModuleName.inOrder_trans ModuleName.inOrder_total ?_ ?_
  · refine (List.perm_ext_iff_of_nodup (distinct c.left) (distinct c.right)).mpr fun name => ?_
    simp only [List.mem_map, listed c.left hr, listed c.right hs]
    constructor
    · rintro ⟨k, ⟨listed, found⟩, rfl⟩
      obtain ⟨l, twin', listed'⟩ := c.listed twin k listed
      exact ⟨l, ⟨listed', c.hasModule_eq twin' twin ▸ found⟩, (c.name twin').symm⟩
    · rintro ⟨l, ⟨listed, found⟩, rfl⟩
      obtain ⟨k, twin', listed'⟩ := c.listed' twin l listed
      exact ⟨k, ⟨listed', c.hasModule_eq twin' twin ▸ found⟩, c.name twin'⟩
  · intro a ha b hb hab hba
    obtain ⟨k, hk, rfl⟩ := List.mem_map.mp ha
    obtain ⟨l, hl, rfl⟩ := List.mem_map.mp hb
    have root := ((listed c.left hr).mp hk).1.root.trans ((listed c.left hr).mp hl).1.root.symm
    exact ModuleName.inOrder_antisymm root hab hba

end Correspondence

/-- In the resolutions of packages whose scopes correspond, a site of a module and the same site of
its twin come to the same; where a test imports from the module it tests, if that declares the same.
-/
theorem Correspondence.rel_binding? {Twin : Module → Module → Prop} {seen : Cause → γ}
    {settings : Settings} {sources sources' : List PackageSource}
    (c : Correspondence Twin seen (Scope.ofSources settings sources)
      (Scope.ofSources settings sources')) {r s : Module} (twin : Twin r s) (i j : Nat)
    (headers : ∀ statement m n, r.imports[i]? = some statement → Twin m n →
      (Scope.ofSources settings sources).locate statement.path r = .ok m →
        ⟨r, m⟩ ∈ (Scope.ofSources settings sources).pairings → m.headers = n.headers) :
    Option.Rel (Agree (Binding.Copied Twin) fun p : Problem => (seen p.cause, p.span, p.file))
      ((Resolution.ofSources settings sources).binding? ⟨r.id, i, j⟩)
      ((Resolution.ofSources settings sources').binding? ⟨s.id, i, j⟩) := by
  obtain ⟨hr, hs⟩ := c.mem twin
  rw [Resolution.binding?_eq settings sources hr, Resolution.binding?_eq settings sources' hs,
    ← (c.imports twin).1]
  cases listed : r.imports[i]? with
  | none => exact .none
  | some statement =>
    rw [Option.bind_some, Option.bind_some]
    cases statement.items[j]? with
    | none => exact .none
    | some item =>
      exact .some (c.agree_result twin statement
        (fun m n twin' located paired => headers statement m n listed twin' located paired) item)

end LetModules
