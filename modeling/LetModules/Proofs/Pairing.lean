import LetModules.Pairing
import LetModules.Proofs.Scope.Region
import Mathlib.Data.List.Sort
import Mathlib.Data.String.Basic

/-!
Which tests are paired with which modules. The tests are taken in order, and each production module
goes to the first that claims it (`mem_pairs_ofTree_iff`); since the order is by path within a
package, that is the claimant with the least path, however the package was listed.
-/

namespace LetModules

/-- In a list in order, the first entry that passes a test is the least that does. -/
theorem find?_eq_some_iff_least {le : α → α → Prop} {p : α → Bool} {entries : List α}
    (ordered : entries.Pairwise le) (refl : ∀ a, le a a)
    (antisymm : ∀ a ∈ entries, ∀ b ∈ entries, p a = true → p b = true → le a b → le b a → a = b)
    {a : α} : entries.find? p = some a ↔
      a ∈ entries ∧ p a = true ∧ ∀ b ∈ entries, p b = true → le a b := by
  have least : ∀ c, entries.find? p = some c → ∀ b ∈ entries, p b = true → le c b := by
    intro c found b hb passes
    obtain ⟨-, before, after, rfl, fail⟩ := List.find?_eq_some_iff_append.mp found
    rcases List.mem_append.mp hb with hb | hb
    · have failed := fail b hb
      simp [passes] at failed
    · rcases List.mem_cons.mp hb with rfl | hb
      · exact refl b
      · exact List.rel_of_pairwise_cons (List.pairwise_append.mp ordered).2.1 hb
  constructor
  · exact fun found => ⟨List.mem_of_find?_eq_some found, List.find?_some found, least a found⟩
  · rintro ⟨mem, passes, below⟩
    obtain ⟨c, found⟩ := Option.isSome_iff_exists.mp (List.find?_isSome.mpr ⟨a, mem, passes⟩)
    have hc := List.mem_of_find?_eq_some found
    have same := antisymm a mem c hc passes (List.find?_some found)
      (below c hc (List.find?_some found)) (least c found a mem passes)
    rw [same, found]

namespace Text

theorem inOrder_iff {a b : List String} : inOrder a b = true ↔ a ≤ b := by
  rw [inOrder, Bool.not_eq_true', ← Bool.not_eq_true, List.lex_eq_true_iff_lt, ← not_lt]

theorem inOrder_refl (a : List String) : inOrder a a = true := inOrder_iff.mpr (le_refl a)

theorem inOrder_trans {a b c : List String} (hab : inOrder a b = true) (hbc : inOrder b c = true) :
    inOrder a c = true :=
  inOrder_iff.mpr (le_trans (inOrder_iff.mp hab) (inOrder_iff.mp hbc))

theorem inOrder_total (a b : List String) : inOrder a b = true ∨ inOrder b a = true :=
  (le_total a b).imp inOrder_iff.mpr inOrder_iff.mpr

theorem inOrder_antisymm {a b : List String} (hab : inOrder a b = true)
    (hba : inOrder b a = true) : a = b :=
  le_antisymm (inOrder_iff.mp hab) (inOrder_iff.mp hba)

end Text

namespace Pairing

theorem atMost_iff {a b : Module} :
    atMost a b = true ↔ a.package.index < b.package.index ∨
      a.package = b.package ∧ Text.inOrder a.path b.path = true := by
  rw [atMost, Bool.or_eq_true, Bool.and_eq_true, decide_eq_true_eq, decide_eq_true_eq]

theorem atMost_refl (a : Module) : atMost a a = true :=
  atMost_iff.mpr (.inr ⟨rfl, Text.inOrder_refl _⟩)

theorem atMost_trans (a b c : Module) (hab : atMost a b = true) (hbc : atMost b c = true) :
    atMost a c = true := by
  rw [atMost_iff] at hab hbc ⊢
  rcases hab with hab | ⟨hab, path⟩ <;> rcases hbc with hbc | ⟨hbc, path'⟩
  · exact .inl (hab.trans hbc)
  · exact .inl (hbc ▸ hab)
  · exact .inl (hab ▸ hbc)
  · exact .inr ⟨hab.trans hbc, Text.inOrder_trans path path'⟩

theorem atMost_total (a b : Module) : (atMost a b || atMost b a) = true := by
  rw [Bool.or_eq_true, atMost_iff, atMost_iff]
  rcases Nat.lt_trichotomy a.package.index b.package.index with less | same | more
  · exact .inl (.inl less)
  · have package : a.package = b.package := by
      cases ha : a.package; cases hb : b.package; simpa [ha, hb] using same
    rcases Text.inOrder_total a.path b.path with path | path
    · exact .inl (.inr ⟨package, path⟩)
    · exact .inr (.inr ⟨package.symm, path⟩)
  · exact .inr (.inl more)

variable {tree : ModuleTree} {settings : Settings}

theorem mem_tests {m : Module} : m ∈ tests tree ↔ m ∈ tree.modules ∧ m.root = .test := by
  rw [tests, List.mem_mergeSort, List.mem_filter, Module.isTest, decide_eq_true_eq]

theorem pairwise_tests : (tests tree).Pairwise fun a b => atMost a b = true :=
  List.pairwise_mergeSort atMost_trans atMost_total _

/-- A test claims a production module of its own package. -/
theorem claimed?_fields (sound : tree.Sound) {test production : Module}
    (claim : claimed? tree settings test = some production) :
    production ∈ tree.modules ∧ production.root = .source ∧ production.package = test.package := by
  rw [claimed?] at claim
  split at claim
  · exact absurd claim (by simp)
  · rcases Option.or_eq_some_iff.mp claim with found | ⟨-, found⟩
    · obtain ⟨mem, root, package, -⟩ := sound.production?_eq_some_iff.mp found
      exact ⟨mem, root, package⟩
    · split at found
      · obtain ⟨mem, root, package, -⟩ := sound.production?_eq_some_iff.mp found
        exact ⟨mem, root, package⟩
      · exact absurd found (by simp)

/-- The test claims the production module. -/
def claims (tree : ModuleTree) (settings : Settings) (production test : Module) : Bool :=
  claimed? tree settings test = some production

/-- Each production module is paired with the first test of `taken` that claims it. -/
structure Settles (tree : ModuleTree) (settings : Settings) (taken : List Module)
    (pairs : Pairings) : Prop where
  first : ∀ test production, ⟨test, production⟩ ∈ pairs ↔
    taken.find? (claims tree settings production) = some test
  tests : (pairs.map (·.test)).Sublist taken
  productions : (pairs.map (·.production.id)).Nodup

theorem Settles.claims {taken : List Module} {pairs : Pairings}
    (settles : Settles tree settings taken pairs) {pair : Pair} (mem : pair ∈ pairs) :
    claimed? tree settings pair.test = some pair.production := by
  have claim := List.find?_some ((settles.first pair.test pair.production).mp mem)
  exact of_decide_eq_true claim

/-- A production module is unpaired while no test that was taken claims it. -/
theorem Settles.testOf_eq_none_iff (sound : tree.Sound) {taken : List Module} {pairs : Pairings}
    (settles : Settles tree settings taken pairs) {production : Module}
    (mem : production ∈ tree.modules) :
    pairs.testOf production.id = none ↔
      taken.find? (Pairing.claims tree settings production) = none := by
  rw [Pairings.testOf, Option.map_eq_none_iff, List.find?_eq_none,
    Option.eq_none_iff_forall_ne_some]
  constructor
  · intro unpaired test found
    have hp := (settles.first test production).mpr found
    exact unpaired _ hp (by simp)
  · intro unclaimed pair hp same
    have there := (claimed?_fields sound (settles.claims hp)).1
    have known : pair.production = production :=
      sound.module_inj there mem (of_decide_eq_true same)
    exact unclaimed pair.test ((settles.first pair.test production).mp (known ▸ hp))

/-- Taking one more test keeps the pairs right. -/
theorem Settles.step (sound : tree.Sound) {taken : List Module} {progress : Progress}
    (settles : Settles tree settings taken progress.pairs) (test : Module) :
    Settles tree settings (taken ++ [test]) (step tree settings progress test).pairs := by
  rw [Pairing.step]
  split
  · -- the test claims nothing
    rename_i unclaiming
    have out : ∀ production, Pairing.claims tree settings production test = false := by
      simp [Pairing.claims, unclaiming]
    refine ⟨fun t p => ?_, settles.tests.trans (List.sublist_append_left ..), settles.productions⟩
    rw [settles.first, List.find?_append, List.find?_singleton, if_neg (by simp [out]),
      Option.or_none]
  · rename_i production claim
    have mem := (claimed?_fields sound claim).1
    have only : ∀ p, Pairing.claims tree settings p test = true ↔ p = production := by
      intro p
      rw [Pairing.claims, decide_eq_true_eq, claim, Option.some.injEq, eq_comm]
    split
    · -- it is the first to claim the module
      rename_i free
      have unclaimed := (settles.testOf_eq_none_iff sound mem).mp free
      refine ⟨fun t p => ?_, ?_, ?_⟩
      · rw [List.mem_append, settles.first, List.mem_singleton, Pair.mk.injEq, List.find?_append,
          List.find?_singleton]
        by_cases here : p = production
        · subst here
          simp [unclaimed, only, eq_comm]
        · simp [here, only]
      · rw [List.map_append]
        exact settles.tests.append (List.Sublist.refl _)
      · rw [List.map_append, List.map_singleton]
        refine (List.perm_append_singleton _ _).nodup_iff.mpr
          (List.nodup_cons.mpr ⟨fun again => ?_, settles.productions⟩)
        obtain ⟨pair, hp, same⟩ := List.mem_map.mp again
        rw [Pairings.testOf, Option.map_eq_none_iff, List.find?_eq_none] at free
        exact free pair hp (by simp [same])
    · -- the module has gone to an earlier test
      rename_i winner taken_by
      have claimed : (taken.find? (Pairing.claims tree settings production)).isSome := by
        rw [Option.isSome_iff_ne_none]
        intro none_found
        rw [(settles.testOf_eq_none_iff sound mem).mpr none_found] at taken_by
        exact absurd taken_by (by simp)
      refine ⟨fun t p => ?_, settles.tests.trans (List.sublist_append_left ..),
        settles.productions⟩
      rw [settles.first, List.find?_append, List.find?_singleton]
      by_cases here : p = production
      · subst here
        obtain ⟨first, found⟩ := Option.isSome_iff_exists.mp claimed
        simp [found]
      · simp [here, only]

/-- The pairs of a sound tree are right for its tests, in order. -/
theorem settles_ofTree (sound : tree.Sound) :
    Settles tree settings (tests tree) (ofTree tree settings).pairs := by
  have run : ∀ (rest taken : List Module) (progress : Progress),
      Settles tree settings taken progress.pairs →
        Settles tree settings (taken ++ rest)
          (rest.foldl (Pairing.step tree settings) progress).pairs := by
    intro rest
    induction rest with
    | nil => exact fun taken progress settles => by simpa using settles
    | cons test rest ih =>
      intro taken progress settles
      have next := ih _ _ (settles.step sound test)
      rwa [List.append_assoc, List.singleton_append] at next
  refine run (tests tree) [] ⟨[], []⟩ ⟨fun t p => ?_, List.Sublist.refl _, List.nodup_nil⟩
  simp

/-- A test is paired with the module it claims if no test with a lesser path claims that too. -/
theorem mem_pairs_ofTree_iff (sound : tree.Sound) {test production : Module} :
    ⟨test, production⟩ ∈ (ofTree tree settings).pairs ↔
      (test ∈ tree.modules ∧ test.root = .test) ∧ claimed? tree settings test = some production ∧
        ∀ other ∈ tree.modules, other.root = .test →
          claimed? tree settings other = some production →
            Text.inOrder test.path other.path = true := by
  have package : ∀ {t : Module}, claims tree settings production t = true →
      t.package = production.package := fun claim =>
    (claimed?_fields sound (of_decide_eq_true claim)).2.2.symm
  have antisymm : ∀ a ∈ tests tree, ∀ b ∈ tests tree, claims tree settings production a = true →
      claims tree settings production b = true → atMost a b = true → atMost b a = true → a = b := by
    intro a ha b hb claimA claimB hab hba
    obtain ⟨ma, ra⟩ := mem_tests.mp ha
    obtain ⟨mb, rb⟩ := mem_tests.mp hb
    have same : a.package = b.package := (package claimA).trans (package claimB).symm
    rw [atMost_iff] at hab hba
    simp only [same, Nat.lt_irrefl, true_and, false_or] at hab hba
    exact sound.module_eq_of_path_eq ma mb same (ra.trans rb.symm) (Text.inOrder_antisymm hab hba)
  rw [(settles_ofTree sound).first,
    find?_eq_some_iff_least pairwise_tests atMost_refl antisymm, mem_tests]
  simp only [mem_tests, claims, decide_eq_true_eq]
  refine and_congr_right fun _ => and_congr_right fun claim => ?_
  constructor
  · intro least other hm hr claim'
    have same := (package (decide_eq_true claim)).trans (package (decide_eq_true claim')).symm
    have below := atMost_iff.mp (least other ⟨hm, hr⟩ claim')
    simpa [same] using below
  · rintro least other ⟨hm, hr⟩ claim'
    have same := (package (decide_eq_true claim)).trans (package (decide_eq_true claim')).symm
    exact atMost_iff.mpr (.inr ⟨same, least other hm hr claim'⟩)

end Pairing

end LetModules
