import LetModules.Proofs.Scope.Sound

/-!
Pairing is the least-path matching. A test module claims the module that its name and its directory
point to (`Claimant`); of the claimants of a module the one with the least path is paired with it,
and every other one is reported with the winner (`leastMatching_ofTree`). Taking the tests in order,
first come first served, never has to take a pair back: whoever has a module when a test comes to
claim it keeps it, so what is reported then is still right in the end (`Accounts`).
-/

namespace LetModules

/-- A module that tests `name` has the suffix behind it. -/
theorem Settings.productionName?_eq_some_iff {settings : Settings} {test name : String} :
    settings.productionName? test = some name ↔
      name ≠ "" ∧ test = name ++ settings.testSuffix := by
  have full : ∀ n : List Char, test.toList = n ++ settings.testSuffix.toList →
      test.toList.take (test.toList.length - settings.testSuffix.toList.length) = n := by
    intro n whole
    rw [whole, List.length_append, Nat.add_sub_cancel, List.take_left]
  rw [productionName?]
  constructor
  · intro found
    split at found
    · rename_i cut
      obtain ⟨some_name, whole⟩ := cut
      obtain rfl := Option.some.inj found
      refine ⟨fun empty => some_name ?_, ?_⟩
      · simpa using congrArg String.toList empty
      · rw [← String.toList_inj, String.toList_append, String.toList_ofList, whole]
    · exact absurd found (by simp)
  · rintro ⟨some_name, rfl⟩
    rw [full name.toList String.toList_append, if_pos, String.ofList_toList]
    exact ⟨fun empty => some_name (String.toList_inj.mp empty), String.toList_append.symm⟩

namespace Pairing

/-- The test module `test` claims `production`, a production module of its package: the one at the
name before the suffix, in the directory of the test, or, if there is none and that directory has
this name itself, the one at the directory. -/
structure Claimant (tree : ModuleTree) (settings : Settings) (production test : Module) : Prop where
  isTest : test ∈ tree.modules ∧ test.root = .test
  isProduction : production ∈ tree.modules ∧ production.root = .source
  package : production.package = test.package
  named : ∃ name, name ≠ "" ∧ test.name = name ++ settings.testSuffix ∧
    (production.path = test.path.dropLast ++ [name] ∨
      (∀ m ∈ tree.modules, m.root = .source → m.package = test.package →
        m.path ≠ test.path.dropLast ++ [name]) ∧
          test.path.dropLast.getLast? = some name ∧ production.path = test.path.dropLast)

variable {tree : ModuleTree} {settings : Settings}

theorem claimed?_eq_some_iff (sound : tree.Sound) {test production : Module}
    (mem : test ∈ tree.modules) (root : test.root = .test) :
    claimed? tree settings test = some production ↔ Claimant tree settings production test := by
  have absent : ∀ path, tree.production? test.package path = none ↔
      ∀ m ∈ tree.modules, m.root = .source → m.package = test.package → m.path ≠ path := by
    intro path
    rw [Option.eq_none_iff_forall_ne_some]
    simp only [ne_eq, sound.production?_eq_some_iff, not_and]
  rw [claimed?]
  constructor
  · intro claim
    split at claim
    · exact absurd claim (by simp)
    · rename_i name named
      obtain ⟨some_name, suffixed⟩ := Settings.productionName?_eq_some_iff.mp named
      rcases Option.or_eq_some_iff.mp claim with found | ⟨missing, found⟩
      · obtain ⟨hp, source, package, path⟩ := sound.production?_eq_some_iff.mp found
        exact ⟨⟨mem, root⟩, ⟨hp, source⟩, package, name, some_name, suffixed, .inl path⟩
      · split at found
        · rename_i last
          obtain ⟨hp, source, package, path⟩ := sound.production?_eq_some_iff.mp found
          exact ⟨⟨mem, root⟩, ⟨hp, source⟩, package, name, some_name, suffixed,
            .inr ⟨(absent _).mp missing, last, path⟩⟩
        · exact absurd found (by simp)
  · rintro ⟨-, ⟨hp, source⟩, package, name, some_name, suffixed, place⟩
    rw [Settings.productionName?_eq_some_iff.mpr ⟨some_name, suffixed⟩]
    refine Option.or_eq_some_iff.mpr ?_
    rcases place with mirrored | ⟨missing, last, folding⟩
    · exact .inl (sound.production?_eq_some_iff.mpr ⟨hp, source, package, mirrored⟩)
    · refine .inr ⟨(absent _).mpr missing, ?_⟩
      rw [if_pos last]
      exact sound.production?_eq_some_iff.mpr ⟨hp, source, package, folding⟩

/-- By package, and within a package by path, where no two are equal. -/
def Before (a b : Module) : Prop :=
  a.package.index < b.package.index ∨ a.package = b.package ∧ a.path < b.path

theorem nodup_tests (sound : tree.Sound) : (tests tree).Nodup :=
  (List.mergeSort_perm _ _).nodup_iff.mpr (sound.nodup_modules.filter _)

theorem pairwise_before (sound : tree.Sound) : (tests tree).Pairwise Before := by
  refine (pairwise_tests.and (nodup_tests sound)).imp_of_mem ?_
  rintro a b ha hb ⟨ordered, differ⟩
  obtain ⟨ma, ra⟩ := mem_tests.mp ha
  obtain ⟨mb, rb⟩ := mem_tests.mp hb
  refine (atMost_iff.mp ordered).imp_right fun ⟨package, path⟩ => ⟨package, ?_⟩
  refine lt_of_le_of_ne (Text.inOrder_iff.mp path) fun same => differ ?_
  exact sound.module_eq_of_path_eq ma mb package (ra.trans rb.symm) same

/-- A test that claims a module which another one has got. -/
structure LateClaim where
  test : Module
  production : Module
  winner : Module

/-- The report of a late claim, which names all three. -/
def LateClaim.report (tree : ModuleTree) (late : LateClaim) : Problem :=
  ⟨.duplicatePairing (tree.displayPath late.test) (tree.displayPath late.production)
    (tree.displayPath late.winner), none, late.test.file⟩

/-- The claim of a test, if another test has the module. -/
def lateClaim? (tree : ModuleTree) (settings : Settings) (pairs : Pairings) (test : Module) :
    Option LateClaim :=
  (claimed? tree settings test).bind fun production =>
    (pairs.testOf production.id).bind fun winner =>
      if winner = test then none else some ⟨test, production, winner⟩

/-- What is reported are the late claims of the tests that were taken. -/
structure Accounts (tree : ModuleTree) (settings : Settings) (taken : List Module)
    (progress : Progress) : Prop where
  settles : Settles tree settings taken progress.pairs
  problems : progress.problems =
    (taken.filterMap (lateClaim? tree settings progress.pairs)).map (LateClaim.report tree)

/-- Whoever has the module that a test claimed keeps it. -/
theorem Settles.lateClaim?_append (sound : tree.Sound) {taken : List Module} {pairs : Pairings}
    (settles : Settles tree settings taken pairs) (later : Pairings) {test : Module}
    (mem : test ∈ taken) :
    lateClaim? tree settings (pairs ++ later) test = lateClaim? tree settings pairs test := by
  rw [lateClaim?, lateClaim?]
  cases claim : claimed? tree settings test with
  | none => rfl
  | some production =>
    have there := (claimed?_fields sound claim).1
    have given : pairs.testOf production.id ≠ none := by
      rw [ne_eq, settles.testOf_eq_none_iff sound there, List.find?_eq_none]
      exact fun unclaimed => unclaimed test mem (by simp [Pairing.claims, claim])
    obtain ⟨winner, given⟩ := Option.ne_none_iff_exists'.mp given
    have kept : (pairs ++ later).testOf production.id = some winner := by
      rw [Pairings.testOf, Option.map_eq_some_iff] at given ⊢
      obtain ⟨pair, found, won⟩ := given
      exact ⟨pair, by rw [List.find?_append, found, Option.some_or], won⟩
    rw [Option.bind_some, Option.bind_some, kept, given]

/-- Taking one more test keeps the account right. -/
theorem Accounts.step (sound : tree.Sound) {taken : List Module} {progress : Progress}
    (accounts : Accounts tree settings taken progress) {test : Module} (new : test ∉ taken) :
    Accounts tree settings (taken ++ [test]) (step tree settings progress test) := by
  refine ⟨accounts.settles.step sound test, ?_⟩
  rw [List.filterMap_append, List.map_append, Pairing.step]
  split
  · -- the test claims nothing
    rename_i unclaiming
    have nothing : lateClaim? tree settings progress.pairs test = none := by
      rw [lateClaim?, unclaiming, Option.bind_none]
    simp [nothing, accounts.problems]
  · rename_i production claim
    split
    · -- it gets the module
      rename_i free
      have won : Pairings.testOf (progress.pairs ++ [⟨test, production⟩]) production.id =
          some test := by
        rw [Pairings.testOf, Option.map_eq_none_iff] at free
        simp [Pairings.testOf, List.find?_append, free]
      have nothing : lateClaim? tree settings (progress.pairs ++ [⟨test, production⟩]) test =
          none := by
        simp [lateClaim?, claim, won]
      have same : taken.filterMap
          (lateClaim? tree settings (progress.pairs ++ [⟨test, production⟩])) =
            taken.filterMap (lateClaim? tree settings progress.pairs) :=
        List.filterMap_congr fun t ht => accounts.settles.lateClaim?_append sound _ ht
      simp [nothing, same, accounts.problems]
    · -- the module has gone to an earlier test
      rename_i winner given
      have earlier : winner ∈ taken := by
        rw [Pairings.testOf, Option.map_eq_some_iff] at given
        obtain ⟨pair, found, rfl⟩ := given
        exact accounts.settles.tests.subset
          (List.mem_map_of_mem (List.mem_of_find?_eq_some found))
      have other : winner ≠ test := fun same => new (same ▸ earlier)
      have late : lateClaim? tree settings progress.pairs test =
          some ⟨test, production, winner⟩ := by
        simp [lateClaim?, claim, given, other]
      simp [late, accounts.problems, LateClaim.report]

theorem accounts_foldl (sound : tree.Sound) : ∀ (rest taken : List Module) (progress : Progress),
    (taken ++ rest).Nodup → Accounts tree settings taken progress →
      Accounts tree settings (taken ++ rest) (rest.foldl (Pairing.step tree settings) progress)
  | [], _, _, _, accounts => by simpa using accounts
  | test :: rest, taken, progress, distinct, accounts => by
    have new : test ∉ taken := fun again =>
      (List.nodup_append.mp distinct).2.2 test again test List.mem_cons_self rfl
    rw [List.append_cons] at distinct ⊢
    exact accounts_foldl sound rest _ _ distinct (accounts.step sound new)

theorem accounts_ofTree (sound : tree.Sound) :
    Accounts tree settings (tests tree) (ofTree tree settings) := by
  refine accounts_foldl sound (tests tree) [] ⟨[], []⟩ (nodup_tests sound) ⟨?_, rfl⟩
  exact ⟨fun t p => by simp, List.Sublist.refl _, List.nodup_nil⟩

theorem lateClaim?_eq_some_iff {pairs : Pairings} {test : Module} {late : LateClaim} :
    lateClaim? tree settings pairs test = some late ↔
      late.test = test ∧ claimed? tree settings test = some late.production ∧
        pairs.testOf late.production.id = some late.winner ∧ late.winner ≠ test := by
  simp only [lateClaim?, Option.bind_eq_some_iff, Option.ite_none_left_eq_some, Option.some.injEq]
  constructor
  · rintro ⟨production, claim, winner, given, other, rfl⟩
    exact ⟨rfl, claim, given, other⟩
  · rintro ⟨rfl, claim, given, other⟩
    exact ⟨late.production, claim, late.winner, given, other, rfl⟩

/-- Every claimed module is paired with its least claimant, both ways and with nothing else, the
pairs are in order, and every other claimant is reported once. -/
structure LeastMatching (tree : ModuleTree) (settings : Settings) (progress : Progress) :
    Prop where
  least : ∀ test production, ⟨test, production⟩ ∈ progress.pairs ↔
    Claimant tree settings production test ∧
      ∀ other, Claimant tree settings production other → other ≠ test → test.path < other.path
  served : ∀ test production, Claimant tree settings production test →
    ∃ winner, ⟨winner, production⟩ ∈ progress.pairs
  fits : ∀ pair ∈ progress.pairs, pair.Fits tree
  productionOf : ∀ id production, progress.pairs.productionOf id = some production ↔
    ∃ pair ∈ progress.pairs, pair.test.id = id ∧ pair.production = production
  testOf : ∀ id test, progress.pairs.testOf id = some test ↔
    ∃ pair ∈ progress.pairs, pair.production.id = id ∧ pair.test = test
  inverse : ∀ test production : ModuleId,
    (progress.pairs.productionOf test).map (·.id) = some production ↔
      (progress.pairs.testOf production).map (·.id) = some test
  ordered : progress.pairs.Pairwise fun a b => Before a.test b.test
  problems : ∃ late : List LateClaim, progress.problems = late.map (·.report tree) ∧
    late.Nodup ∧ ∀ l, l ∈ late ↔ Claimant tree settings l.production l.test ∧
      ⟨l.winner, l.production⟩ ∈ progress.pairs ∧ l.winner ≠ l.test

/-- A test is paired with what it claims if every other claimant has a greater path. -/
theorem mem_pairs_iff_least (sound : tree.Sound) {test production : Module} :
    ⟨test, production⟩ ∈ (ofTree tree settings).pairs ↔
      Claimant tree settings production test ∧
        ∀ other, Claimant tree settings production other → other ≠ test →
          test.path < other.path := by
  rw [mem_pairs_ofTree_iff sound]
  constructor
  · rintro ⟨⟨mem, root⟩, claim, least⟩
    have claimant := (claimed?_eq_some_iff sound mem root).mp claim
    refine ⟨claimant, fun other claims differ => ?_⟩
    obtain ⟨there, kind⟩ := claims.isTest
    have below := least other there kind ((claimed?_eq_some_iff sound there kind).mpr claims)
    refine lt_of_le_of_ne (Text.inOrder_iff.mp below) fun same => differ ?_
    exact sound.module_eq_of_path_eq there mem (claims.package.symm.trans claimant.package)
      (kind.trans root.symm) same.symm
  · rintro ⟨claimant, least⟩
    obtain ⟨mem, root⟩ := claimant.isTest
    refine ⟨⟨mem, root⟩, (claimed?_eq_some_iff sound mem root).mpr claimant, ?_⟩
    intro other there kind claim
    have claims := (claimed?_eq_some_iff sound there kind).mp claim
    by_cases same : other = test
    · exact same ▸ Text.inOrder_refl _
    · exact Text.inOrder_iff.mpr (le_of_lt (least other claims same))

/-- A module that a test claims is paired with some test. -/
theorem exists_mem_pairs (sound : tree.Sound) {test production : Module}
    (claimant : Claimant tree settings production test) :
    ∃ winner, ⟨winner, production⟩ ∈ (ofTree tree settings).pairs := by
  have claim := (claimed?_eq_some_iff sound claimant.isTest.1 claimant.isTest.2).mpr claimant
  have found : ((tests tree).find? (claims tree settings production)).isSome :=
    List.find?_isSome.mpr ⟨test, mem_tests.mpr claimant.isTest, decide_eq_true claim⟩
  obtain ⟨winner, found⟩ := Option.isSome_iff_exists.mp found
  exact ⟨winner, ((settles_ofTree sound).first winner production).mpr found⟩

theorem productionOf_eq_some_iff (sound : tree.Sound) {id : ModuleId} {production : Module} :
    (ofTree tree settings).pairs.productionOf id = some production ↔
      ∃ pair ∈ (ofTree tree settings).pairs, pair.test.id = id ∧ pair.production = production := by
  have tests : ((ofTree tree settings).pairs.map (·.test.id)).Nodup :=
    (Scope.sound_ofTree settings sound).tests
  rw [Pairings.productionOf, Option.map_eq_some_iff]
  simp only [find?_eq_some_iff_of_nodup tests, and_assoc]

theorem testOf_eq_some_iff (sound : tree.Sound) {id : ModuleId} {test : Module} :
    (ofTree tree settings).pairs.testOf id = some test ↔
      ∃ pair ∈ (ofTree tree settings).pairs, pair.production.id = id ∧ pair.test = test := by
  have productions : ((ofTree tree settings).pairs.map (·.production.id)).Nodup :=
    (Scope.sound_ofTree settings sound).productions
  rw [Pairings.testOf, Option.map_eq_some_iff]
  simp only [find?_eq_some_iff_of_nodup productions, and_assoc]

/-- The claims of a tree that came too late, in the order of the tests. -/
def lateClaims (tree : ModuleTree) (settings : Settings) : List LateClaim :=
  (tests tree).filterMap (lateClaim? tree settings (ofTree tree settings).pairs)

theorem problems_ofTree (sound : tree.Sound) :
    (ofTree tree settings).problems = (lateClaims tree settings).map (LateClaim.report tree) :=
  (accounts_ofTree sound).problems

theorem nodup_lateClaims (sound : tree.Sound) : (lateClaims tree settings).Nodup :=
  (nodup_tests sound).filterMap fun _ _ _ here there =>
    (lateClaim?_eq_some_iff.mp here).1.symm.trans (lateClaim?_eq_some_iff.mp there).1

/-- The late claims are those of the claimants of a module that is paired with another one. -/
theorem mem_lateClaims_iff (sound : tree.Sound) {late : LateClaim} :
    late ∈ lateClaims tree settings ↔ Claimant tree settings late.production late.test ∧
      ⟨late.winner, late.production⟩ ∈ (ofTree tree settings).pairs ∧
        late.winner ≠ late.test := by
  simp only [lateClaims, List.mem_filterMap, lateClaim?_eq_some_iff, mem_tests,
    testOf_eq_some_iff sound]
  constructor
  · rintro ⟨test, ⟨mem, root⟩, rfl, claim, ⟨pair, hp, same, won⟩, other⟩
    have claimant := (claimed?_eq_some_iff sound mem root).mp claim
    have there := ((Scope.sound_ofTree settings sound).pairs pair hp).production
    have known : pair.production = late.production :=
      sound.module_inj there claimant.isProduction.1 same
    refine ⟨claimant, ?_, other⟩
    rwa [← won, ← known]
  · rintro ⟨claimant, pair, other⟩
    obtain ⟨mem, root⟩ := claimant.isTest
    exact ⟨late.test, ⟨mem, root⟩, rfl, (claimed?_eq_some_iff sound mem root).mpr claimant,
      ⟨_, pair, rfl, rfl⟩, other⟩

/-- Nothing is reported about the pairs if every claimant is paired with what it claims. -/
theorem problems_ofTree_eq_nil_iff (sound : tree.Sound) : (ofTree tree settings).problems = [] ↔
    ∀ test production, Claimant tree settings production test →
      ⟨test, production⟩ ∈ (ofTree tree settings).pairs := by
  rw [problems_ofTree sound, List.map_eq_nil_iff, List.eq_nil_iff_forall_not_mem]
  constructor
  · intro none_late test production claimant
    obtain ⟨winner, pair⟩ := exists_mem_pairs sound claimant
    by_cases same : winner = test
    · exact same ▸ pair
    · exact absurd ((mem_lateClaims_iff sound).mpr ⟨claimant, pair, same⟩)
        (none_late ⟨test, production, winner⟩)
  · intro paired late mem
    obtain ⟨claimant, pair, differ⟩ := (mem_lateClaims_iff sound).mp mem
    -- both have the module, and so both are what `testOf` finds
    have won := (testOf_eq_some_iff sound).mpr ⟨_, pair, rfl, rfl⟩
    have won' := (testOf_eq_some_iff sound).mpr ⟨_, paired _ _ claimant, rfl, rfl⟩
    exact differ (Option.some.inj (won.symm.trans won'))

/-- In the tree of any packages, pairing is the least-path matching. -/
theorem leastMatching_ofTree (settings : Settings) (sources : List PackageSource) :
    LeastMatching (Growth.ofSources sources).tree settings
      (ofTree (Growth.ofSources sources).tree settings) := by
  have sound := Growth.sound_ofSources sources
  refine ⟨fun _ _ => mem_pairs_iff_least sound, fun _ _ => exists_mem_pairs sound,
    (Scope.sound_ofTree settings sound).pairs, fun _ _ => productionOf_eq_some_iff sound,
    fun _ _ => testOf_eq_some_iff sound, fun test production => ?_, ?_, ?_⟩
  · simp only [Option.map_eq_some_iff, productionOf_eq_some_iff sound, testOf_eq_some_iff sound]
    constructor
    · rintro ⟨_, ⟨pair, mem, rfl, rfl⟩, rfl⟩
      exact ⟨_, ⟨pair, mem, rfl, rfl⟩, rfl⟩
    · rintro ⟨_, ⟨pair, mem, rfl, rfl⟩, rfl⟩
      exact ⟨_, ⟨pair, mem, rfl, rfl⟩, rfl⟩
  · exact List.pairwise_map.mp ((pairwise_before sound).sublist (settles_ofTree sound).tests)
  · exact ⟨_, problems_ofTree sound, nodup_lateClaims sound, fun _ => mem_lateClaims_iff sound⟩

end Pairing

end LetModules
