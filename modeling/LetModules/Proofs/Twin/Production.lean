import LetModules.Proofs.Twin.Untested

/-!
Tests cannot influence production. What a production module looks up, it looks up among production
modules: in and below its own directory, below the source roots, in lists of candidates. So without
tests every lookup comes to the same, causes of failures included (`agree_locate`), the scopes
correspond (`correspondence`), and production modules export, see and import what they did.
-/

namespace LetModules

theorem eraseDups_eq_self [BEq α] [LawfulBEq α] : ∀ {entries : List α}, entries.Nodup →
    entries.eraseDups = entries
  | [], _ => rfl
  | a :: rest, distinct => by
    obtain ⟨fresh, distinct⟩ := List.nodup_cons.mp distinct
    have others : rest.filter (fun b => !b == a) = rest := by
      refine List.filter_eq_self.mpr fun b hb => ?_
      have differ : b ≠ a := fun same => fresh (same ▸ hb)
      simpa using differ
    rw [List.eraseDups_cons, others, eraseDups_eq_self distinct]

theorem rel_getElem? {R : α → β → Prop} {l : List α} {l' : List β} (related : List.Forall₂ R l l') :
    ∀ i : Nat, Option.Rel R l[i]? l'[i]? := by
  induction related with
  | nil => exact fun _ => .none
  | cons head _ ih =>
    intro i
    cases i with
    | zero => exact .some head
    | succ i => exact ih i

namespace Scope

theorem walkFirst_singleton (names : List String) (root : Directory) :
    walkFirst names [root] = root.walk names := by
  rw [walkFirst]
  cases root.walk names <;> rfl

/-- A production module looks full paths up from the source root of its package. -/
theorem ownRoots_of_production {scope : Scope} {m : Module} (root : m.root = .source) :
    scope.ownRoots m = ((scope.tree.package? m.package).map (·.source)).toList := by
  rw [ownRoots, root]
  cases scope.tree.package? m.package <;> rfl

namespace Sound

variable {scope : Scope} (sound : scope.Sound)

include sound

/-- A production module is the test of none. -/
theorem unpaired_of_production {m : Module} (root : m.root = .source) (p : Module) :
    ⟨m, p⟩ ∉ scope.pairings :=
  fun pair => absurd (root.symm.trans (sound.pairs _ pair).isTest) (by simp)

/-- A bare name reaches from a production module what has the name in or below its directory. -/
theorem inScope_of_production {m : Module} (mem : m ∈ scope.tree.modules) (root : m.root = .source)
    (name : String) : scope.inScope name m =
      scope.tree.modules.filter fun k => m.Encloses k ∧ k.name = name := by
  have alone : scope.pairings.productionOf m.id = none := by
    by_contra paired
    obtain ⟨p, found⟩ := Option.ne_none_iff_exists'.mp paired
    exact sound.unpaired_of_production root p ((sound.productionOf_eq_some_iff mem).mp found)
  obtain ⟨d, -, found, -⟩ := sound.tree.exists_directory mem
  have anchors : scope.anchors m = [d] := by
    rw [Scope.anchors, alone]
    simp [found]
  rw [inScope, anchors, List.flatMap_singleton, sound.tree.modulesNamed_eq_filter mem found]
  exact eraseDups_eq_self (sound.tree.nodup_modules.filter _)

end Sound

end Scope

namespace ModuleTree.Untested

variable {S T : ModuleTree} (h : S.Untested T)

include h

/-- A test that twins pass alike, and no module of a test root passes, picks twins. -/
theorem forall₂_filter {p q : Module → Bool} (production : ∀ m, p m = true → m.root = .source)
    (same : ∀ m n, Twins S T m n → p m = q n) :
    List.Forall₂ (Twins S T) (S.modules.filter p) (T.modules.filter q) := by
  have only : S.modules.filter p = (S.modules.filter (·.isProduction)).filter p := by
    rw [List.filter_filter]
    refine List.filter_congr fun m _ => ?_
    cases picked : p m with
    | false => rfl
    | true => simp [Module.isProduction, production m picked]
  rw [only]
  exact List.rel_filter (fun m n twins => by simp [same m n twins]) h.forall₂_twins

variable (settings : Settings)

/-- Twins reach twins under a bare name. -/
theorem forall₂_inScope {m n : Module} (twins : Twins S T m n) (name : String) :
    List.Forall₂ (Twins S T) ((Scope.ofTree settings S).inScope name m)
      ((Scope.ofTree settings T).inScope name n) := by
  obtain ⟨root, root'⟩ := h.production twins
  rw [(Scope.sound_ofTree settings h.soundLeft).inScope_of_production twins.left root,
    (Scope.sound_ofTree settings h.soundRight).inScope_of_production twins.right root']
  refine h.forall₂_filter (fun k picked => ?_) fun k l twins' => ?_
  · exact (of_decide_eq_true picked).1.2.1.symm.trans root
  · rw [h.ownName twins']
    exact decide_eq_decide.mpr (and_congr_left fun _ => h.encloses_iff twins twins')

/-- The candidates that a message lists are twins. -/
theorem forall₂_candidates (package : PackageId) (name : String) :
    List.Forall₂ (Twins S T) ((Scope.ofTree settings S).candidates package name)
      ((Scope.ofTree settings T).candidates package name) := by
  refine h.forall₂_filter (fun k picked => ?_) fun k l twins => ?_
  · simp only [Bool.and_eq_true, Module.isProduction, decide_eq_true_eq] at picked
    exact picked.1.2
  · rw [Module.isProduction, Module.isProduction, h.package twins, twins.root, h.ownName twins]

/-- The completions that a hint names are twins. -/
theorem rel_completion? (package : PackageId) (segments : List String) :
    Option.Rel (Twins S T) ((Scope.ofTree settings S).completion? package segments)
      ((Scope.ofTree settings T).completion? package segments) := by
  have fitting : List.Forall₂ (Twins S T)
      (S.modules.filter fun k => k.package = package && k.isProduction &&
        segments.length < k.path.length && segments.isSuffixOf k.path)
      (T.modules.filter fun k => k.package = package && k.isProduction &&
        segments.length < k.path.length && segments.isSuffixOf k.path) := by
    refine h.forall₂_filter (fun k picked => ?_) fun k l twins => ?_
    · simp only [Bool.and_eq_true, Module.isProduction, decide_eq_true_eq] at picked
      exact picked.1.1.2
    · rw [Module.isProduction, Module.isProduction, h.package twins, twins.root, twins.path]
  rw [Scope.completion?, Scope.completion?]
  dsimp only [Scope.ofTree]
  generalize S.modules.filter _ = found at fitting ⊢
  generalize T.modules.filter _ = found' at fitting ⊢
  cases fitting with
  | nil => exact .none
  | cons head rest =>
    cases rest with
    | nil => exact .some head
    | cons _ _ => exact .none

/-- A bare name that twins write names twins, or fails for the same cause. -/
theorem agree_locateShort {m n : Module} (twins : Twins S T m n) (name : String) :
    Agree (Twins S T) id ((Scope.ofTree settings S).locateShort name m)
      ((Scope.ofTree settings T).locateShort name n) := by
  have importer : (Scope.ofTree settings S).tree.displayPath m =
      (Scope.ofTree settings T).tree.displayPath n := displayPath_eq twins.name
  have candidates := map_eq_of_forall₂ (fun _ _ twins' => twins'.pathText)
    (h.forall₂_candidates settings n.package name)
  have inScope := h.forall₂_inScope settings twins name
  have several := map_eq_of_forall₂ (fun _ _ twins' => twins'.pathText) inScope
  rw [Scope.locateShort, Scope.locateShort, importer, h.package twins, candidates]
  generalize (Scope.ofTree settings S).inScope name m = found at inScope several ⊢
  generalize (Scope.ofTree settings T).inScope name n = found' at inScope several ⊢
  cases inScope with
  | nil => rfl
  | cons head rest =>
    cases rest with
    | nil => exact head
    | cons _ _ => exact congrArg (Cause.notInScope name _) several

/-- What is missed in a package is reported alike. -/
theorem missed_eq (path : ModulePath) (package : PackageId) (segments : List String)
    (miss : Directory.Miss) : (Scope.ofTree settings S).missed path package segments miss =
      (Scope.ofTree settings T).missed path package segments miss := by
  have completion := h.rel_completion? settings package segments
  rw [Scope.missed, Scope.missed]
  generalize (Scope.ofTree settings S).completion? package segments = found at completion ⊢
  generalize (Scope.ofTree settings T).completion? package segments = found' at completion ⊢
  cases completion with
  | none => rfl
  | some twins => rw [Option.map_some, Option.map_some, twins.pathText]

/-- Walks from the source root of a package find twins, or miss the same. -/
theorem agree_walkFirst (package : PackageId) (names : List String) :
    Agree (Twins S T) id
      (Scope.walkFirst names
        (((Scope.ofTree settings S).tree.package? package).map (·.source)).toList)
      (Scope.walkFirst names
        (((Scope.ofTree settings T).tree.package? package).map (·.source)).toList) := by
  change Agree (Twins S T) id (Scope.walkFirst names ((S.package? package).map (·.source)).toList)
    (Scope.walkFirst names ((T.package? package).map (·.source)).toList)
  have packages : Option.Rel Package.Untested (S.package? package) (T.package? package) :=
    rel_getElem? h.packages package.index
  have left : ∀ p, S.package? package = some p → p ∈ S.packages := fun p found =>
    (h.soundLeft.package?_eq_some_iff.mp found).1
  have right : ∀ q, T.package? package = some q → q ∈ T.packages := fun q found =>
    (h.soundRight.package?_eq_some_iff.mp found).1
  generalize S.package? package = p at packages left ⊢
  generalize T.package? package = q at packages right ⊢
  cases packages with
  | none => rfl
  | @some p q same =>
    have source : p.root? .source = some p.source := rfl
    have source' : q.root? .source = some q.source := rfl
    -- the walks succeed or fail together, and where they end is told by the names
    have walked := same.source.agree_walk names
    simp only [Option.map_some, Option.toList_some, Scope.walkFirst_singleton]
    cases found : p.source.walk names <;> cases found' : q.source.walk names <;>
      rw [found, found'] at walked
    · exact walked
    · exact walked.elim
    · exact walked.elim
    · obtain ⟨hm, mine, root, path⟩ :=
        (h.soundLeft.walk_root_eq_ok_iff (left p rfl) source).mp found
      obtain ⟨hn, its, root', path'⟩ :=
        (h.soundRight.walk_root_eq_ok_iff (right q rfl) source').mp found'
      refine ⟨hm, hn, ?_⟩
      rw [nameOf, nameOf, h.packageName_eq, mine, its, same.id, root, root', path, path']

/-- A full path that twins write names twins, or fails for the same cause. -/
theorem agree_locateFull {m n : Module} (twins : Twins S T m n) (path : ModulePath)
    (first : String) (rest : List String) :
    Agree (Twins S T) id ((Scope.ofTree settings S).locateFull path first rest m)
      ((Scope.ofTree settings T).locateFull path first rest n) := by
  obtain ⟨root, root'⟩ := h.production twins
  have registry : (Scope.ofTree settings S).registry = (Scope.ofTree settings T).registry :=
    h.registry_eq
  have other : (Scope.ofTree settings S).otherPackage? first m =
      (Scope.ofTree settings T).otherPackage? first n := by
    rw [Scope.otherPackage?, Scope.otherPackage?, registry, h.package twins]
  have own := h.agree_walkFirst settings m.package (first :: rest)
  rw [Scope.locateFull, Scope.locateFull, Scope.ownRoots_of_production root,
    Scope.ownRoots_of_production root', other, registry, ← h.package twins]
  generalize Scope.walkFirst (first :: rest) _ = x at own ⊢
  generalize Scope.walkFirst (first :: rest) _ = y at own ⊢
  rcases x with miss | k <;> rcases y with miss' | l
  · obtain rfl : miss = miss' := own
    dsimp only
    cases (Scope.ofTree settings T).otherPackage? first n with
    | none => exact h.missed_eq settings path m.package (first :: rest) miss
    | some package =>
      have foreign := h.agree_walkFirst settings package rest
      dsimp only
      generalize Scope.walkFirst rest _ = x at foreign ⊢
      generalize Scope.walkFirst rest _ = y at foreign ⊢
      split
      · rcases x with miss | k <;> rcases y with miss' | l
        · obtain rfl : miss = miss' := foreign
          exact h.missed_eq settings path package rest miss
        · exact foreign.elim
        · exact foreign.elim
        · exact foreign
      · rfl
  · exact own.elim
  · exact own.elim
  · exact own

/-- A path that twins write names twins, or fails for the same cause. -/
theorem agree_locate {m n : Module} (twins : Twins S T m n) (path : ModulePath) :
    Agree (Twins S T) id ((Scope.ofTree settings S).locate path m)
      ((Scope.ofTree settings T).locate path n) := by
  rw [Scope.locate, Scope.locate]
  rcases path.segments with _ | ⟨first, _ | ⟨next, rest⟩⟩
  · exact rfl
  · exact h.agree_locateShort settings twins first
  · exact h.agree_locateFull settings twins path first (next :: rest)

/-- The scopes with and without tests correspond, causes of failed lookups included. -/
theorem correspondence : Correspondence (Twins S T) id (Scope.ofTree settings S)
    (Scope.ofTree settings T) where
  left := Scope.sound_ofTree settings h.soundLeft
  right := Scope.sound_ofTree settings h.soundRight
  mem := fun twins => ⟨twins.left, twins.right⟩
  unique := h.unique
  name := Twins.name
  imports := fun twins => by
    have same := h.profileOf twins
    exact ⟨congrArg Profile.imports same, congrArg Profile.file same⟩
  offers := fun twins => congrArg (fun x => openHeaders x.headers) (h.profileOf twins)
  admits := fun twins twins' tier => by
    cases tier with
    | «private» => exact Iff.rfl
    | «protected» => exact h.encloses_iff twins twins'
    | internal => rw [Tier.Admits, Tier.Admits, h.package twins, h.package twins']
    | «public» => exact Iff.rfl
  paired := fun {t u p q} twins _ => by
    obtain ⟨root, root'⟩ := h.production twins
    exact iff_of_false ((Scope.sound_ofTree settings h.soundLeft).unpaired_of_production root p)
      ((Scope.sound_ofTree settings h.soundRight).unpaired_of_production root' q)
  tested := fun twins => by
    obtain ⟨root, root'⟩ := h.production twins
    have left := (Scope.sound_ofTree settings h.soundLeft).unpaired_of_production root
    have right := (Scope.sound_ofTree settings h.soundRight).unpaired_of_production root'
    exact iff_of_false (not_exists.mpr left) (not_exists.mpr right)
  locate := fun twins path => h.agree_locate settings twins path
  below := fun {m n} twins folds k hk encloses => by
    obtain ⟨l, twins'⟩ := h.exists_twin hk (encloses.2.1.symm.trans (h.production twins).1)
    exact ⟨(h.folds twins).symm.trans folds, l, twins',
      (h.encloses_iff twins twins').mp encloses⟩
  below' := fun {m n} twins folds l hl encloses => by
    obtain ⟨k, twins'⟩ := h.exists_twin' hl
    exact ⟨(h.folds twins).trans folds, k, twins', (h.encloses_iff twins twins').mpr encloses⟩
  listed := fun twins k listed => by
    obtain ⟨l, twins'⟩ := h.exists_twin listed.mem listed.root
    refine ⟨l, twins', twins'.right, (h.production twins').2, ?_,
      mt (h.unique twins' twins).mpr listed.other⟩
    have package := listed.package
    rwa [h.package twins, h.package twins',
      show (Scope.ofTree settings S).registry = _ from h.registry_eq] at package
  listed' := fun twins l listed => by
    obtain ⟨k, twins'⟩ := h.exists_twin' listed.mem
    refine ⟨k, twins', twins'.left, (h.production twins').1, ?_,
      mt (h.unique twins' twins).mp listed.other⟩
    have package := listed.package
    rwa [← h.package twins, ← h.package twins',
      show (Scope.ofTree settings T).registry = _ from h.registry_eq.symm] at package

end ModuleTree.Untested

/-- The second resolution has the production modules of the first one and no others. They export the
same, the same modules exist for them, and their imports come to the same, down to the problems. -/
structure Resolution.SameProduction (r r' : Resolution) : Prop where
  packages : r.tree.packages.map (·.name) = r'.tree.packages.map (·.name)
  modules : (r.tree.modules.filter (·.isProduction)).map r.tree.nameOf =
    r'.tree.modules.map r'.tree.nameOf
  exports : ∀ m n, ModuleTree.Twins r.tree r'.tree m n →
    List.Forall₂ (Export.SameAs r.tree r'.tree) (r.exports.ofModule r.pairings m)
      (r'.exports.ofModule r'.pairings n)
  visible : ∀ m n, ModuleTree.Twins r.tree r'.tree m n →
    (r.visibleModules m).map r.tree.nameOf = (r'.visibleModules n).map r'.tree.nameOf
  sites : ∀ m n, ModuleTree.Twins r.tree r'.tree m n → ∀ i j,
    Option.Rel (Agree (Binding.SameAs r.tree r'.tree) id) (r.binding? ⟨m.id, i, j⟩)
      (r'.binding? ⟨n.id, i, j⟩)

/-- If packages are all taken, their production modules resolve to the same without the tests. -/
theorem sameProduction_of_untested (settings : Settings) {sources : List PackageSource}
    (taken : Growth.empty.TakesAll sources) :
    (Resolution.ofSources settings sources).SameProduction
      (Resolution.ofSources settings (sources.map (·.untested))) := by
  have untested := Growth.untested_ofSources taken
  have c := untested.correspondence settings
  constructor
  case packages => exact untested.names
  case modules => exact map_eq_of_forall₂ (fun _ _ twins => twins.name) untested.forall₂_twins
  case exports =>
    exact fun m n twins =>
      (c.forall₂_ofModule twins).imp fun _ _ copied => c.export_sameAs copied
  case visible => exact fun m n twins => c.map_nameOf_visibleModules twins
  case sites =>
    intro m n twins i j
    have unpaired := fun p => c.left.unpaired_of_production (untested.production twins).1 p
    have sites := c.rel_binding? twins i j fun _ p _ _ _ _ pair => absurd pair (unpaired p)
    refine rel_imp (fun _ _ agree => ?_) sites
    exact agree.imp (fun _ _ copied => c.binding_sameAs copied) fun _ _ same =>
      congrArg (fun x : Cause × Option Span × Option FileId => Problem.mk x.1 x.2.1 x.2.2) same

/-- A module that imports from another one what that offers, and in vain from the test of it. -/
def Resolution.SameProduction.sample : List PackageSource :=
  let store : ModuleSource := ⟨"Store", none, [⟨"get", .public, .function, none, none⟩], []⟩
  let main : ModuleSource := ⟨"Main", none, [],
    [⟨⟨["Store"], none⟩, [⟨"get", none, none⟩], none⟩,
      ⟨⟨["StoreTest"], none⟩, [⟨"helper", none, none⟩], none⟩]⟩
  let storeTest : ModuleSource :=
    ⟨"StoreTest", none, [⟨"helper", .internal, .function, none, none⟩],
      [⟨⟨["Store"], none⟩, [⟨"get", none, none⟩], none⟩]⟩
  [⟨"app", [], ⟨"src", [store, main], []⟩, some ⟨"test", [storeTest], []⟩⟩]

/-- Without the test, the imports of the sample are bound and fail as they did with it. -/
theorem sameProduction_of_untested_sample :
    let r := Resolution.ofSources .standard Resolution.SameProduction.sample
    Growth.empty.TakesAll Resolution.SameProduction.sample ∧ r.pairings.length = 1 ∧
      (r.binding? ⟨⟨1⟩, 0, 0⟩).map (·.isOk) = some true ∧
      (r.binding? ⟨⟨1⟩, 1, 0⟩).map (·.isOk) = some false ∧
      r.SameProduction (Resolution.ofSources .standard
        (Resolution.SameProduction.sample.map (·.untested))) := by
  intro r
  have taken : Growth.empty.TakesAll Resolution.SameProduction.sample :=
    ⟨by decide +kernel, trivial⟩
  exact ⟨taken, by decide +kernel, by decide +kernel, by decide +kernel,
    sameProduction_of_untested .standard taken⟩

end LetModules
