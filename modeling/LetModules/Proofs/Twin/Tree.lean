import LetModules.Proofs.Twin.Correspondence

/-!
Trees of packages that look alike. If two trees have packages of the same names and dependencies,
with modules of the same profiles up to private declarations, then modules of one name are twins:
pairing and lookups speak of names only, so the scopes of the trees correspond
(`correspondence_ofTree`). All that is left to compare are the causes of failed lookups.
-/

namespace LetModules

/-- Profiles that differ in private declarations at most. -/
structure Profile.Alike (x y : Profile) : Prop where
  name : x.name = y.name
  folds : x.folds = y.folds
  ownName : x.ownName = y.ownName
  file : x.file = y.file
  imports : x.imports = y.imports
  offers : openHeaders x.headers = openHeaders y.headers

theorem Profile.Alike.refl (x : Profile) : x.Alike x := ⟨rfl, rfl, rfl, rfl, rfl, rfl⟩

theorem Profile.Alike.symm {x y : Profile} (h : x.Alike y) : y.Alike x :=
  ⟨h.name.symm, h.folds.symm, h.ownName.symm, h.file.symm, h.imports.symm, h.offers.symm⟩

/-- Packages of one name with the same dependencies and modules that look alike. -/
structure PackageProfile.Alike (p q : PackageProfile) : Prop where
  name : p.name = q.name
  dependencies : p.dependencies = q.dependencies
  left : ∀ x ∈ p.modules, ∃ y ∈ q.modules, x.Alike y
  right : ∀ y ∈ q.modules, ∃ x ∈ p.modules, x.Alike y

theorem PackageProfile.Alike.symm {p q : PackageProfile} (h : p.Alike q) : q.Alike p where
  name := h.name.symm
  dependencies := h.dependencies.symm
  left := fun y hy => (h.right y hy).imp fun _ ⟨hx, same⟩ => ⟨hx, same.symm⟩
  right := fun x hx => (h.left x hx).imp fun _ ⟨hy, same⟩ => ⟨hy, same.symm⟩

namespace ModuleTree

/-- Sound trees with packages that look alike. -/
structure Alike (S T : ModuleTree) : Prop where
  soundLeft : S.Sound
  soundRight : T.Sound
  left : ∀ p ∈ S.packages, ∃ q ∈ T.packages, p.profile.Alike q.profile
  right : ∀ q ∈ T.packages, ∃ p ∈ S.packages, p.profile.Alike q.profile

/-- Modules of one name. -/
structure Twins (S T : ModuleTree) (m n : Module) : Prop where
  left : m ∈ S.modules
  right : n ∈ T.modules
  name : S.nameOf m = T.nameOf n

namespace Twins

variable {S T : ModuleTree} {m n : Module}

theorem symm (twins : Twins S T m n) : Twins T S n m :=
  ⟨twins.right, twins.left, twins.name.symm⟩

theorem package (twins : Twins S T m n) : S.packageName m.package = T.packageName n.package :=
  congrArg ModuleName.package twins.name

theorem root (twins : Twins S T m n) : m.root = n.root := congrArg ModuleName.root twins.name

theorem path (twins : Twins S T m n) : m.path = n.path := congrArg ModuleName.path twins.name

theorem pathText (twins : Twins S T m n) : m.pathText = n.pathText :=
  congrArg Text.joined twins.path

/-- In sound trees a module has one twin at most. -/
theorem unique (left : S.Sound) (right : T.Sound) {m' n' : Module} (twins : Twins S T m n)
    (twins' : Twins S T m' n') : m = m' ↔ n = n' := by
  constructor
  · rintro rfl
    exact right.nameOf_inj twins.right twins'.right (twins.name.symm.trans twins'.name)
  · rintro rfl
    exact left.nameOf_inj twins.left twins'.left (twins.name.trans twins'.name.symm)

end Twins

namespace Alike

variable {S T : ModuleTree}

theorem symm (alike : S.Alike T) : T.Alike S where
  soundLeft := alike.soundRight
  soundRight := alike.soundLeft
  left := fun q hq => (alike.right q hq).imp fun _ ⟨hp, same⟩ => ⟨hp, same.symm⟩
  right := fun p hp => (alike.left p hp).imp fun _ ⟨hq, same⟩ => ⟨hq, same.symm⟩

variable (alike : S.Alike T)

include alike

/-- Every module has a twin that looks alike. -/
theorem exists_twin {m : Module} (hm : m ∈ S.modules) :
    ∃ n, Twins S T m n ∧ (S.profileOf m).Alike (T.profileOf n) := by
  obtain ⟨p, hp, hx⟩ := alike.soundLeft.exists_profileOf_iff.mp ⟨m, hm, rfl⟩
  obtain ⟨q, hq, packages⟩ := alike.left p hp
  obtain ⟨y, hy, same⟩ := packages.left _ hx
  obtain ⟨n, hn, rfl⟩ := alike.soundRight.exists_profileOf_iff.mpr ⟨q, hq, hy⟩
  exact ⟨n, ⟨hm, hn, same.name⟩, same⟩

theorem unique {m n m' n' : Module} (twins : Twins S T m n) (twins' : Twins S T m' n') :
    m = m' ↔ n = n' :=
  twins.unique alike.soundLeft alike.soundRight twins'

/-- Twins look alike. -/
theorem profileOf {m n : Module} (twins : Twins S T m n) :
    (S.profileOf m).Alike (T.profileOf n) := by
  obtain ⟨n', twins', same⟩ := alike.exists_twin twins.left
  rwa [(alike.unique twins twins').mp rfl]

theorem package_iff {m n r s : Module} (twins : Twins S T m n) (twins' : Twins S T r s) :
    m.package = r.package ↔ n.package = s.package := by
  constructor
  · intro same
    refine alike.soundRight.packageName_inj twins.right twins'.right ?_
    rw [← twins.package, same, twins'.package]
  · intro same
    refine alike.soundLeft.packageName_inj twins.left twins'.left ?_
    rw [twins.package, same, twins'.package]

theorem directoryPath {m n : Module} (twins : Twins S T m n) :
    m.directoryPath = n.directoryPath := by
  have folds : m.folds = n.folds := (alike.profileOf twins).folds
  rw [Module.directoryPath, Module.directoryPath, folds, twins.path]

theorem encloses_iff {m n r s : Module} (twins : Twins S T m n) (twins' : Twins S T r s) :
    m.Encloses r ↔ n.Encloses s := by
  rw [Module.Encloses, Module.Encloses, alike.package_iff twins twins', twins.root, twins'.root,
    alike.directoryPath twins, alike.directoryPath twins']

/-- A path names twins in the packages of twins. -/
theorem exists_production {t u p : Module} (twins : Twins S T t u) {path : List String}
    (found : S.production? t.package path = some p) :
    ∃ q, T.production? u.package path = some q ∧ Twins S T p q := by
  obtain ⟨hp, root, package, rfl⟩ := alike.soundLeft.production?_eq_some_iff.mp found
  obtain ⟨q, twins', -⟩ := alike.exists_twin hp
  exact ⟨q, alike.soundRight.production?_eq_some_iff.mpr ⟨twins'.right, twins'.root ▸ root,
    (alike.package_iff twins' twins).mp package, twins'.path.symm⟩, twins'⟩

theorem production?_eq_none {t u : Module} (twins : Twins S T t u) {path : List String}
    (missing : S.production? t.package path = none) : T.production? u.package path = none := by
  by_contra found
  obtain ⟨q, found⟩ := Option.ne_none_iff_exists'.mp found
  obtain ⟨p, found', -⟩ := alike.symm.exists_production twins.symm found
  exact absurd (missing.symm.trans found') (by simp)

/-- Twins claim twins. -/
theorem exists_claimed (settings : Settings) {t u p : Module} (twins : Twins S T t u)
    (claim : Pairing.claimed? S settings t = some p) :
    ∃ q, Pairing.claimed? T settings u = some q ∧ Twins S T p q := by
  have ownName : t.name = u.name := (alike.profileOf twins).ownName
  rw [Pairing.claimed?, ownName, twins.path] at claim
  rw [Pairing.claimed?]
  split at claim
  · exact absurd claim (by simp)
  · rename_i name named
    dsimp only at claim ⊢
    rcases Option.or_eq_some_iff.mp claim with found | ⟨missing, found⟩
    · obtain ⟨q, found', twins'⟩ := alike.exists_production twins found
      exact ⟨q, Option.or_eq_some_iff.mpr (.inl found'), twins'⟩
    · split at found
      · obtain ⟨q, found', twins'⟩ := alike.exists_production twins found
        refine ⟨q, Option.or_eq_some_iff.mpr (.inr ⟨?_, ?_⟩), twins'⟩
        · exact alike.production?_eq_none twins missing
        · rwa [if_pos ‹_›]
      · exact absurd found (by simp)

theorem mem_pairs_of_mem_pairs (settings : Settings) {t u p q : Module} (tests : Twins S T t u)
    (productions : Twins S T p q) (pair : ⟨t, p⟩ ∈ (Pairing.ofTree S settings).pairs) :
    ⟨u, q⟩ ∈ (Pairing.ofTree T settings).pairs := by
  rw [Pairing.mem_pairs_ofTree_iff alike.soundLeft] at pair
  rw [Pairing.mem_pairs_ofTree_iff alike.soundRight]
  obtain ⟨⟨-, root⟩, claim, least⟩ := pair
  obtain ⟨q', claim', twins⟩ := alike.exists_claimed settings tests claim
  obtain rfl := (alike.unique productions twins).mp rfl
  refine ⟨⟨tests.right, tests.root ▸ root⟩, claim', fun other there kind other_claim => ?_⟩
  obtain ⟨mine, others, -⟩ := alike.symm.exists_twin there
  obtain ⟨p', claimed, twins'⟩ := alike.symm.exists_claimed settings others other_claim
  obtain rfl := (alike.unique productions twins'.symm).mpr rfl
  rw [← tests.path, others.path]
  exact least mine others.right (others.root ▸ kind) claimed

/-- Pairing twins makes pairs of twins. -/
theorem mem_pairs_iff (settings : Settings) {t u p q : Module} (tests : Twins S T t u)
    (productions : Twins S T p q) : ⟨t, p⟩ ∈ (Pairing.ofTree S settings).pairs ↔
      ⟨u, q⟩ ∈ (Pairing.ofTree T settings).pairs :=
  ⟨alike.mem_pairs_of_mem_pairs settings tests productions,
    alike.symm.mem_pairs_of_mem_pairs settings tests.symm productions.symm⟩

/-- The twin of a paired test is paired. -/
theorem exists_pair (settings : Settings) {t u : Module} (twins : Twins S T t u)
    (paired : ∃ p, ⟨t, p⟩ ∈ (Pairing.ofTree S settings).pairs) :
    ∃ q, ⟨u, q⟩ ∈ (Pairing.ofTree T settings).pairs := by
  obtain ⟨p, pair⟩ := paired
  have fits := (Scope.sound_ofTree settings alike.soundLeft).pairs _ pair
  obtain ⟨q, twins', -⟩ := alike.exists_twin fits.production
  exact ⟨q, (alike.mem_pairs_iff settings twins twins').mp pair⟩

/-- The package of a module depends on a package of a given name exactly if that of its twin does.
-/
theorem exists_dependency {r s k l : Module} (twins : Twins S T r s) (twins' : Twins S T k l)
    {name : String} (found : ∃ p ∈ S.packages, ∃ q ∈ S.packages, p.id = r.package ∧
      q.id = k.package ∧ q.name = name ∧ q.name ∈ p.dependencies) :
    ∃ p ∈ T.packages, ∃ q ∈ T.packages, p.id = s.package ∧ q.id = l.package ∧ q.name = name ∧
      q.name ∈ p.dependencies := by
  have across : ∀ {m n : Module} {p : Package}, Twins S T m n → p ∈ S.packages →
      p.id = m.package → ∃ q ∈ T.packages, q.id = n.package ∧ q.name = p.name ∧
        q.dependencies = p.dependencies := by
    intro m n p twins hp same
    obtain ⟨q, hq, package, -⟩ := alike.soundRight.exists_package twins.right
    obtain ⟨q', hq', profiles⟩ := alike.left p hp
    have name : q'.name = q.name := by
      have named := twins.package
      rw [package, alike.soundRight.packageName_of_mem hq, ← same,
        alike.soundLeft.packageName_of_mem hp] at named
      exact profiles.name.symm.trans named
    obtain rfl := List.inj_on_of_nodup_map alike.soundRight.names hq' hq name
    exact ⟨q', hq, package.symm, profiles.name.symm, profiles.dependencies.symm⟩
  obtain ⟨p, hp, q, hq, here, there, named, declared⟩ := found
  obtain ⟨p', hp', here', -, dependencies⟩ := across twins hp here
  obtain ⟨q', hq', there', name, -⟩ := across twins' hq there
  exact ⟨p', hp', q', hq', here', there', name.trans named, by rwa [name, dependencies]⟩

variable (settings : Settings)

theorem reaches_of_reaches {m n k l : Module} (twins : Twins S T m n) (twins' : Twins S T k l)
    (reaches : (Scope.ofTree settings S).Reaches m k) : (Scope.ofTree settings T).Reaches n l := by
  rcases reaches with encloses | ⟨p, pair, encloses⟩
  · exact .inl ((alike.encloses_iff twins twins').mp encloses)
  · have fits := (Scope.sound_ofTree settings alike.soundLeft).pairs _ pair
    obtain ⟨q, productions, -⟩ := alike.exists_twin fits.production
    exact .inr ⟨q, (alike.mem_pairs_iff settings twins productions).mp pair,
      (alike.encloses_iff productions twins').mp encloses⟩

theorem own_of_own {m n k l : Module} (twins : Twins S T m n) (twins' : Twins S T k l)
    {names : List String} (own : (Scope.ofTree settings S).Own m names k) :
    (Scope.ofTree settings T).Own n names l where
  mem := twins'.right
  package := (alike.package_iff twins' twins).mp own.package
  path := twins'.path.symm.trans own.path
  root := by
    rw [← twins'.root, ← twins.root]
    refine own.root.imp_right fun ⟨root, absent⟩ => ⟨root, fun o ho package kind path => ?_⟩
    obtain ⟨o', others, -⟩ := alike.symm.exists_twin ho
    exact absent o' others.right ((alike.package_iff others.symm twins).mpr package)
      (others.root.symm.trans kind) (others.path.symm.trans path)

theorem foreign_of_foreign {m n k l : Module} (twins : Twins S T m n) (twins' : Twins S T k l)
    {name : String} {names : List String}
    (foreign : (Scope.ofTree settings S).Foreign m name names k) :
    (Scope.ofTree settings T).Foreign n name names l where
  mem := twins'.right
  package := by
    obtain ⟨p, hp, q, hq, here, there, named, differ, declared⟩ := foreign.package
    obtain ⟨p', hp', q', hq', here', there', named', declared'⟩ :=
      alike.exists_dependency twins twins' ⟨p, hp, q, hq, here, there, named, declared⟩
    refine ⟨p', hp', q', hq', here', there', named', fun same => differ ?_, declared'⟩
    rw [here', there'] at same
    rw [here, there]
    exact (alike.package_iff twins twins').mpr same
  root := twins'.root ▸ foreign.root
  path := twins'.path.symm.trans foreign.path

/-- A path that leads somewhere from a module leads to the twin of that from its twin. -/
theorem exists_locate {m n t : Module} (twins : Twins S T m n) {path : ModulePath}
    (found : (Scope.ofTree settings S).locate path m = .ok t) :
    ∃ u, (Scope.ofTree settings T).locate path n = .ok u ∧ Twins S T t u := by
  have left := Scope.sound_ofTree settings alike.soundLeft
  have right := Scope.sound_ofTree settings alike.soundRight
  obtain ⟨u, targets, -⟩ := alike.exists_twin (left.locate_mem twins.left found)
  refine ⟨u, (right.locate_eq_ok_iff twins.right).mpr ?_, targets⟩
  have closed := (left.locate_eq_ok_iff twins.left).mp found
  match path.segments, closed with
  | [name], only =>
    dsimp only at only ⊢
    intro l
    constructor
    · rintro ⟨hl, named, reaches⟩
      obtain ⟨k, twins', same⟩ := alike.symm.exists_twin hl
      have reached : k = t := (only k).mp ⟨twins'.right, same.ownName.symm.trans named,
        alike.symm.reaches_of_reaches settings twins.symm twins' reaches⟩
      exact (alike.unique twins'.symm targets).mp reached
    · rintro rfl
      obtain ⟨-, named, reaches⟩ := (only t).mpr rfl
      exact ⟨targets.right, (alike.profileOf targets).ownName.symm.trans named,
        alike.reaches_of_reaches settings twins targets reaches⟩
  | _ :: _ :: _, .inl own =>
    exact .inl (alike.own_of_own settings twins targets own)
  | _ :: _ :: _, .inr ⟨none_own, foreign⟩ =>
    refine .inr ⟨fun l own => ?_, alike.foreign_of_foreign settings twins targets foreign⟩
    obtain ⟨k, twins', -⟩ := alike.symm.exists_twin own.mem
    exact none_own k (alike.symm.own_of_own settings twins.symm twins' own)

theorem listed_of_listed {r s k l : Module} (twins : Twins S T r s) (twins' : Twins S T k l)
    (listed : (Scope.ofTree settings S).Listed r k) : (Scope.ofTree settings T).Listed s l where
  mem := twins'.right
  root := twins'.root ▸ listed.root
  package := by
    refine listed.package.imp (alike.package_iff twins' twins).mp fun depends => ?_
    obtain ⟨p, hp, here, -⟩ := alike.soundLeft.exists_package twins.left
    obtain ⟨q, hq, there, -⟩ := alike.soundLeft.exists_package twins'.left
    have edge : (Registry.ofTree S).dependsOn p.id q.id = true := by rwa [← here, ← there]
    have declared := (Registry.dependsOn_ofTree_iff alike.soundLeft hp hq).mp edge
    obtain ⟨p', hp', q', hq', here', there', -, declared'⟩ :=
      alike.exists_dependency twins twins' ⟨p, hp, q, hq, here.symm, there.symm, rfl, declared⟩
    have edge' := (Registry.dependsOn_ofTree_iff alike.soundRight hp' hq').mpr declared'
    rwa [here', there'] at edge'
  other := mt (alike.unique twins' twins).mpr listed.other

/-- Scopes of trees that look alike correspond, if the same is seen of the causes of failed
lookups. -/
theorem correspondence_ofTree (seen : Cause → γ)
    (causes : ∀ m n, Twins S T m n → ∀ path c c',
      (Scope.ofTree settings S).locate path m = .error c →
        (Scope.ofTree settings T).locate path n = .error c' → seen c = seen c') :
    Correspondence (Twins S T) seen (Scope.ofTree settings S) (Scope.ofTree settings T) where
  left := Scope.sound_ofTree settings alike.soundLeft
  right := Scope.sound_ofTree settings alike.soundRight
  mem := fun twins => ⟨twins.left, twins.right⟩
  unique := alike.unique
  name := Twins.name
  imports := fun twins => ⟨(alike.profileOf twins).imports, (alike.profileOf twins).file⟩
  offers := fun twins => (alike.profileOf twins).offers
  admits := fun twins twins' tier => by
    cases tier with
    | «private» => exact Iff.rfl
    | «protected» => exact alike.encloses_iff twins twins'
    | internal => exact alike.package_iff twins twins'
    | «public» => exact Iff.rfl
  paired := alike.mem_pairs_iff settings
  tested := fun twins =>
    ⟨alike.exists_pair settings twins, alike.symm.exists_pair settings twins.symm⟩
  locate := fun {m n} twins path => by
    cases found : (Scope.ofTree settings S).locate path m with
    | ok t =>
      obtain ⟨u, found', targets⟩ := alike.exists_locate settings twins found
      rw [found']
      exact targets
    | error c =>
      cases found' : (Scope.ofTree settings T).locate path n with
      | ok u =>
        obtain ⟨t, there, -⟩ := alike.symm.exists_locate settings twins.symm found'
        exact absurd (found.symm.trans there) (by simp)
      | error c' => exact causes m n twins path c c' found found'
  below := fun {m n} twins folds k hk encloses => by
    obtain ⟨l, twins', -⟩ := alike.exists_twin hk
    exact ⟨(alike.profileOf twins).folds.symm.trans folds, l, twins',
      (alike.encloses_iff twins twins').mp encloses⟩
  below' := fun {m n} twins folds l hl encloses => by
    obtain ⟨k, twins', -⟩ := alike.symm.exists_twin hl
    exact ⟨(alike.profileOf twins).folds.trans folds, k, twins'.symm,
      (alike.encloses_iff twins twins'.symm).mpr encloses⟩
  listed := fun twins k listed => by
    obtain ⟨l, twins', -⟩ := alike.exists_twin listed.mem
    exact ⟨l, twins', alike.listed_of_listed settings twins twins' listed⟩
  listed' := fun twins l listed => by
    obtain ⟨k, twins', -⟩ := alike.symm.exists_twin listed.mem
    exact ⟨k, twins'.symm, alike.symm.listed_of_listed settings twins.symm twins' listed⟩

end Alike

end ModuleTree

end LetModules
