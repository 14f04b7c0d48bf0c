import LetModules.Proofs.Existence
import LetModules.Proofs.Exports
import LetModules.Proofs.Reexport.Origin
import LetModules.Proofs.Tree.Profile
import LetModules.Proofs.Visibility
import Mathlib.Data.List.Forall2

/-!
Modules of two scopes that stand for each other. A correspondence asks of such twins that they offer
the same declarations, that paths lead from them to twins, and that pairings, packages and
directories relate them alike. Then chains of re-exports run in parallel (`leads_of_copied`), so
twins have the same export sets (`forall₂_ofModule`) and the same modules exist for them
(`hasModule_eq`).
-/

namespace LetModules

open Relation (ReflTransGen)

/-- The headers of the declarations that are not private. -/
def openHeaders (headers : List DeclarationHeader) : List DeclarationHeader :=
  headers.filter (·.tier ≠ .private)

theorem openHeaders_headers (m : Module) : openHeaders m.headers =
    (m.declarations.filter (·.tier ≠ .private)).map (·.toDeclarationHeader) :=
  List.filter_map

/-- Two results that say the same: related values, or errors in which the same is seen. -/
def Agree (R : α → β → Prop) (seen : ε → γ) : Except ε α → Except ε β → Prop
  | .ok a, .ok b => R a b
  | .error c, .error c' => seen c = seen c'
  | _, _ => False

theorem Agree.symm {R : α → β → Prop} {seen : ε → γ} : ∀ {x : Except ε α} {y : Except ε β},
    Agree R seen x y → Agree (fun b a => R a b) seen y x
  | .ok _, .ok _, h => h
  | .error _, .error _, h => Eq.symm h

theorem Agree.exists_ok {R : α → β → Prop} {seen : ε → γ} {x : Except ε α} {y : Except ε β}
    {a : α} (h : Agree R seen x y) (found : x = .ok a) : ∃ b, y = .ok b ∧ R a b := by
  subst found
  match y, h with
  | .ok b, h => exact ⟨b, rfl, h⟩

/-- The module can be listed for the requester. -/
structure Scope.Listed (scope : Scope) (requester m : Module) : Prop where
  mem : m ∈ scope.tree.modules
  root : m.root = .source
  package : m.package = requester.package ∨
    scope.registry.dependsOn requester.package m.package = true
  other : m ≠ requester

/-- Twins of two scopes look the same, and lookups from twins lead to twins. -/
structure Correspondence (Twin : Module → Module → Prop) (seen : Cause → γ) (S T : Scope) :
    Prop where
  left : S.Sound
  right : T.Sound
  mem : ∀ {m n}, Twin m n → m ∈ S.tree.modules ∧ n ∈ T.tree.modules
  unique : ∀ {m n m' n'}, Twin m n → Twin m' n' → (m = m' ↔ n = n')
  name : ∀ {m n}, Twin m n → S.tree.nameOf m = T.tree.nameOf n
  imports : ∀ {m n}, Twin m n → m.imports = n.imports ∧ m.file = n.file
  offers : ∀ {m n}, Twin m n → openHeaders m.headers = openHeaders n.headers
  admits : ∀ {m n r s}, Twin m n → Twin r s → ∀ tier : Tier, tier.Admits m r ↔ tier.Admits n s
  paired : ∀ {t u p q}, Twin t u → Twin p q → (⟨t, p⟩ ∈ S.pairings ↔ ⟨u, q⟩ ∈ T.pairings)
  tested : ∀ {t u}, Twin t u → ((∃ p, ⟨t, p⟩ ∈ S.pairings) ↔ ∃ q, ⟨u, q⟩ ∈ T.pairings)
  locate : ∀ {m n}, Twin m n → ∀ path, Agree Twin seen (S.locate path m) (T.locate path n)
  below : ∀ {m n}, Twin m n → m.folds = true → ∀ k ∈ S.tree.modules, m.Encloses k →
    n.folds = true ∧ ∃ l, Twin k l ∧ n.Encloses l
  below' : ∀ {m n}, Twin m n → n.folds = true → ∀ l ∈ T.tree.modules, n.Encloses l →
    m.folds = true ∧ ∃ k, Twin k l ∧ m.Encloses k
  listed : ∀ {r s}, Twin r s → ∀ k, S.Listed r k → ∃ l, Twin k l ∧ T.Listed s l
  listed' : ∀ {r s}, Twin r s → ∀ l, T.Listed s l → ∃ k, Twin k l ∧ S.Listed r k

/-- A declaration of a module, and one of its twin with the same header. -/
def Copied (Twin : Module → Module → Prop) (d e : Declaration) : Prop :=
  ∃ m n, Twin m n ∧ d ∈ m.declarations ∧ e ∈ n.declarations ∧
    d.toDeclarationHeader = e.toDeclarationHeader

/-- Exports of one name, of copied declarations. -/
structure Export.Copied (Twin : Module → Module → Prop) (x y : Export) : Prop where
  name : x.name = y.name
  published : LetModules.Copied Twin x.published y.published
  origin : LetModules.Copied Twin x.origin y.origin

theorem Copied.symm {Twin : Module → Module → Prop} {d e : Declaration} :
    Copied Twin d e → Copied (fun n m => Twin m n) e d :=
  fun ⟨m, n, twin, hd, he, same⟩ => ⟨n, m, twin, he, hd, same.symm⟩

/-- If two lists agree in their keys, what entries with one key yield is related entry by entry. -/
theorem forall₂_filterMap {key : α → κ} {key' : β → κ} {f : α → Option γ} {g : β → Option δ}
    {R : γ → δ → Prop} : ∀ {l : List α} {l' : List β}, l.map key = l'.map key' →
      (∀ a ∈ l, ∀ b ∈ l', key a = key' b → Option.Rel R (f a) (g b)) →
        List.Forall₂ R (l.filterMap f) (l'.filterMap g)
  | [], [], _, _ => List.Forall₂.nil
  | a :: l, b :: l', keys, yields => by
    obtain ⟨here, rest⟩ := List.cons.inj keys
    have ih := forall₂_filterMap rest fun a' ha b' hb =>
      yields a' (List.mem_cons_of_mem _ ha) b' (List.mem_cons_of_mem _ hb)
    have head := yields a List.mem_cons_self b List.mem_cons_self here
    rw [List.filterMap_cons, List.filterMap_cons]
    generalize f a = x at head ⊢
    generalize g b = y at head ⊢
    cases head with
    | some related => exact .cons related ih
    | none => exact ih

theorem any_eq_of_forall₂ {R : α → β → Prop} {p : α → Bool} {q : β → Bool}
    (same : ∀ a b, R a b → p a = q b) {l : List α} {l' : List β} (related : List.Forall₂ R l l') :
    l.any p = l'.any q := by
  induction related with
  | nil => rfl
  | cons head _ ih => rw [List.any_cons, List.any_cons, same _ _ head, ih]

/-- What related entries have in common. -/
theorem map_eq_of_forall₂ {R : α → β → Prop} {f : α → γ} {g : β → γ}
    (same : ∀ a b, R a b → f a = g b) {l : List α} {l' : List β} (related : List.Forall₂ R l l') :
    l.map f = l'.map g := by
  rw [← List.forall₂_eq_eq_eq, List.forall₂_map_left_iff, List.forall₂_map_right_iff]
  exact related.imp same

theorem rel_imp {R R' : α → β → Prop} (related : ∀ a b, R a b → R' a b) :
    ∀ {x : Option α} {y : Option β}, Option.Rel R x y → Option.Rel R' x y
  | _, _, .none => .none
  | _, _, .some h => .some (related _ _ h)

theorem exists_right_of_forall₂ {R : α → β → Prop} {l : List α} {l' : List β}
    (related : List.Forall₂ R l l') : ∀ a ∈ l, ∃ b ∈ l', R a b := by
  induction related with
  | nil => exact fun _ absent => absurd absent List.not_mem_nil
  | cons head _ ih =>
    intro a mem
    rcases List.mem_cons.mp mem with rfl | mem
    · exact ⟨_, List.mem_cons_self, head⟩
    · obtain ⟨b, hb, same⟩ := ih a mem
      exact ⟨b, List.mem_cons_of_mem _ hb, same⟩

/-- A scope with what its re-exports stand for. -/
def Scope.linked (scope : Scope) : Linked := ⟨scope, (Exports.ofScope scope).1⟩

namespace Correspondence

variable {Twin : Module → Module → Prop} {seen : Cause → γ} {S T : Scope}

theorem symm (c : Correspondence Twin seen S T) :
    Correspondence (fun n m => Twin m n) seen T S where
  left := c.right
  right := c.left
  mem := fun twin => (c.mem twin).symm
  unique := fun twin twin' => (c.unique twin twin').symm
  name := fun twin => (c.name twin).symm
  imports := fun twin => ⟨(c.imports twin).1.symm, (c.imports twin).2.symm⟩
  offers := fun twin => (c.offers twin).symm
  admits := fun twin twin' tier => (c.admits twin twin' tier).symm
  paired := fun twin twin' => (c.paired twin twin').symm
  tested := fun twin => (c.tested twin).symm
  locate := fun twin path => (c.locate twin path).symm
  below := c.below'
  below' := c.below
  listed := c.listed'
  listed' := c.listed

variable (c : Correspondence Twin seen S T)

include c

theorem id_eq_iff {m n r s : Module} (twin : Twin m n) (twin' : Twin r s) :
    m.id = r.id ↔ n.id = s.id := by
  obtain ⟨hm, hn⟩ := c.mem twin
  obtain ⟨hr, hs⟩ := c.mem twin'
  constructor
  · exact fun h => congrArg _ ((c.unique twin twin').mp (c.left.tree.module_inj hm hr h))
  · exact fun h => congrArg _ ((c.unique twin twin').mpr (c.right.tree.module_inj hn hs h))

theorem displayPath_eq {m n : Module} (twin : Twin m n) :
    S.tree.displayPath m = T.tree.displayPath n :=
  ModuleTree.displayPath_eq (c.name twin)

theorem isPrivileged_eq {m n r s : Module} (twin : Twin m n) (requesters : Twin r s) :
    S.pairings.isPrivileged r.id m.id = T.pairings.isPrivileged s.id n.id := by
  rw [Bool.eq_iff_iff, c.left.isPrivileged_iff (c.mem requesters).1 (c.mem twin).1,
    c.right.isPrivileged_iff (c.mem requesters).2 (c.mem twin).2]
  exact c.paired requesters twin

/-- What is not private in a module is copied in its twin. -/
theorem exists_copy {m n : Module} (twin : Twin m n) {d : Declaration} (mem : d ∈ m.declarations)
    (tier : d.tier ≠ .private) :
    ∃ e ∈ n.declarations, d.toDeclarationHeader = e.toDeclarationHeader := by
  have offered : d.toDeclarationHeader ∈ openHeaders n.headers := by
    rw [← c.offers twin]
    exact List.mem_filter.mpr ⟨List.mem_map_of_mem mem, by simpa using tier⟩
  obtain ⟨e, he, same⟩ := List.mem_map.mp (List.mem_of_mem_filter offered)
  exact ⟨e, he, same.symm⟩

theorem isEntryPoint_eq {d e : Declaration} (copied : Copied Twin d e) :
    S.pairings.isEntryPoint d = T.pairings.isEntryPoint e := by
  obtain ⟨m, n, twin, hd, he, same⟩ := copied
  obtain ⟨hm, hn⟩ := c.mem twin
  have tested : S.pairings.isPairedTest m.id = T.pairings.isPairedTest n.id := by
    rw [Bool.eq_iff_iff, c.left.isPairedTest_iff hm, c.right.isPairedTest_iff hn]
    exact c.tested twin
  rw [Pairings.isEntryPoint, Pairings.isEntryPoint, Declaration.isReexport, Declaration.isReexport,
    same, c.left.tree.owner_eq hm hd, c.right.tree.owner_eq hn he, tested]

/-- Twins see the same of twins. -/
theorem visible_eq {d e : Declaration} (copied : Copied Twin d e) {r s : Module}
    (requesters : Twin r s) : S.tree.visible d r = T.tree.visible e s := by
  obtain ⟨m, n, twin, hd, he, same⟩ := copied
  obtain ⟨hm, hn⟩ := c.mem twin
  obtain ⟨hr, hs⟩ := c.mem requesters
  rw [Bool.eq_iff_iff, c.left.tree.visible_iff hm hr hd, c.right.tree.visible_iff hn hs he, same,
    c.unique twin requesters, c.admits twin requesters]

/-- The copy of a re-export leads to a copy of what the re-export leads to. -/
theorem leads_of_copied {d e d' : Declaration} (copied : Copied Twin d e)
    (leads : Reexport.Leads S d d') : ∃ e', Reexport.Leads T e e' ∧ Copied Twin d' e' := by
  obtain ⟨m, n, twin, hd, he, same⟩ := copied
  obtain ⟨hm, hn⟩ := c.mem twin
  obtain ⟨path, owner, target, link⟩ := leads
  obtain rfl := Option.some.inj ((c.left.tree.module?_owner hm hd).symm.trans link.owned)
  obtain ⟨target', located, twin'⟩ := (c.locate twin path).exists_ok link.located
  obtain ⟨ht, ht'⟩ := c.mem twin'
  obtain ⟨declared, named⟩ := (c.left.tree.declaration?_name_eq_some_iff ht).mp link.published
  obtain ⟨e', he', same'⟩ := c.exists_copy twin' declared link.notPrivate
  have copied' : Copied Twin d' e' := ⟨target, target', twin', declared, he', same'⟩
  have published : target'.declaration? e.name = some e' := by
    refine (c.right.tree.declaration?_name_eq_some_iff ht').mpr ⟨he', ?_⟩
    rw [← same', ← same, named]
  have elsewhere : target'.id ≠ n.id := fun there =>
    link.elsewhere (congrArg _ ((c.unique twin' twin).mpr (c.right.tree.module_inj ht' hn there)))
  refine ⟨e', ⟨path, n, target', ?_, ?_, c.right.tree.module?_owner hn he, located, elsewhere,
    published, same' ▸ link.notPrivate, c.isEntryPoint_eq copied' ▸ link.notEntryPoint,
    c.visible_eq copied' twin ▸ link.visible⟩, copied'⟩
  · rw [Declaration.isReexport, ← same]
    exact link.reexport
  · rw [← same]
    exact link.source

/-- The copy of a declaration has a copy of its origin. -/
theorem isOrigin_of_copied {d o : Declaration} (origin : Reexport.IsOrigin S d o) :
    ∀ {e}, Copied Twin d e → ∃ o', Reexport.IsOrigin T e o' ∧ Copied Twin o o' := by
  obtain ⟨chain, concrete⟩ := origin
  induction chain using ReflTransGen.head_induction_on with
  | refl =>
    intro e copied
    obtain ⟨m, n, twin, hd, he, same⟩ := copied
    refine ⟨e, ⟨.refl, ?_⟩, m, n, twin, hd, he, same⟩
    rwa [Reexport.IsConcrete, Declaration.isReexport, ← same]
  | head leads _ ih =>
    intro e copied
    obtain ⟨e', leads', copied'⟩ := c.leads_of_copied copied leads
    obtain ⟨o', ⟨chain', concrete'⟩, last⟩ := ih copied'
    exact ⟨o', ⟨chain'.head leads', concrete'⟩, last⟩

theorem exists_originOf {d e o : Declaration} (copied : Copied Twin d e)
    (found : S.linked.exports.originOf d = some o) :
    ∃ o', T.linked.exports.originOf e = some o' ∧ Copied Twin o o' := by
  obtain ⟨m, n, twin, hd, he, -⟩ := id copied
  obtain ⟨hm, hn⟩ := c.mem twin
  have inS := c.left.tree.mem_declarations.mpr ⟨m, hm, hd⟩
  have inT := c.right.tree.mem_declarations.mpr ⟨n, hn, he⟩
  obtain ⟨o', origin, last⟩ :=
    c.isOrigin_of_copied ((c.left.originOf_eq_some_iff inS).mp found) copied
  exact ⟨o', (c.right.originOf_eq_some_iff inT).mpr origin, last⟩

/-- Copies stand for copies, or both for nothing. -/
theorem rel_originOf {d e : Declaration} (copied : Copied Twin d e) :
    Option.Rel (Copied Twin) (S.linked.exports.originOf d) (T.linked.exports.originOf e) := by
  cases found : S.linked.exports.originOf d with
  | some o =>
    obtain ⟨o', found', last⟩ := c.exists_originOf copied found
    rw [found']
    exact .some last
  | none =>
    cases found' : T.linked.exports.originOf e with
    | none => exact .none
    | some o' =>
      obtain ⟨o, found'', -⟩ := c.symm.exists_originOf copied.symm found'
      exact absurd (found.symm.trans found'') (by simp)

theorem rel_exportOf {d e : Declaration} (copied : Copied Twin d e) :
    Option.Rel (Export.Copied Twin) (S.linked.exports.exportOf S.pairings d)
      (T.linked.exports.exportOf T.pairings e) := by
  have entry := c.isEntryPoint_eq copied
  have origins := c.rel_originOf copied
  obtain ⟨m, n, twin, hd, he, same⟩ := id copied
  rw [Exports.exportOf, Exports.exportOf, same, entry]
  split
  · exact .none
  · cases found : S.linked.exports.originOf d <;> cases found' : T.linked.exports.originOf e <;>
      rw [found, found'] at origins
    · exact .none
    · cases origins
    · cases origins
    · cases origins with
      | some last => exact .some ⟨rfl, copied, last⟩

/-- Twins have the same exports, in the same order. -/
theorem forall₂_ofModule {m n : Module} (twin : Twin m n) :
    List.Forall₂ (Export.Copied Twin) (S.linked.exports.ofModule S.pairings m)
      (T.linked.exports.ofModule T.pairings n) := by
  -- private declarations export nothing
  have kept : ∀ (exports : Exports) (pairings : Pairings) (m : Module),
      exports.ofModule pairings m =
        (m.declarations.filter (·.tier ≠ .private)).filterMap (exports.exportOf pairings) := by
    intro exports pairings m
    rw [Exports.ofModule, List.filterMap_filter]
    refine List.filterMap_congr fun d _ => ?_
    split
    · rfl
    · rename_i hidden
      have tier : d.tier = .private := by simpa using hidden
      rw [Exports.exportOf, tier, Tier.isPrivate]
      rfl
  have offers := c.offers twin
  rw [openHeaders_headers, openHeaders_headers] at offers
  rw [kept, kept]
  refine forall₂_filterMap offers fun d hd e he same => c.rel_exportOf ?_
  exact ⟨m, n, twin, List.mem_of_mem_filter hd, List.mem_of_mem_filter he, same⟩

theorem showsExport_eq {m n r s : Module} (twin : Twin m n) (requesters : Twin r s) :
    S.linked.showsExport r m = T.linked.showsExport s n :=
  any_eq_of_forall₂ (fun _ _ copied => c.visible_eq copied.published requesters)
    (c.forall₂_ofModule twin)

theorem shows_iff {m n r s : Module} (twin : Twin m n) (requesters : Twin r s) :
    S.linked.Shows r m ↔ T.linked.Shows s n := by
  rw [Linked.Shows, Linked.Shows, c.id_eq_iff twin requesters, c.showsExport_eq twin requesters]

theorem hasModule_of_hasModule {m n r s : Module} (twin : Twin m n) (requesters : Twin r s)
    (found : S.linked.hasModule m r = true) : T.linked.hasModule n s = true := by
  obtain ⟨hm, hn⟩ := c.mem twin
  have left : S.linked.tree.Sound := c.left.tree
  have right : T.linked.tree.Sound := c.right.tree
  obtain ⟨k, hk, inside, seen⟩ := (left.hasModule_iff hm r).mp found
  refine (right.hasModule_iff hn s).mpr ?_
  rcases inside with rfl | ⟨folds, encloses⟩
  · exact ⟨n, hn, .inl rfl, (c.shows_iff twin requesters).mp seen⟩
  · obtain ⟨folds', l, twin', encloses'⟩ := c.below twin folds k hk encloses
    exact ⟨l, (c.mem twin').2, .inr ⟨folds', encloses'⟩, (c.shows_iff twin' requesters).mp seen⟩

/-- For twins the same modules exist. -/
theorem hasModule_eq {m n r s : Module} (twin : Twin m n) (requesters : Twin r s) :
    S.linked.hasModule m r = T.linked.hasModule n s :=
  Bool.eq_iff_iff.mpr ⟨c.hasModule_of_hasModule twin requesters,
    c.symm.hasModule_of_hasModule twin requesters⟩

end Correspondence

end LetModules
