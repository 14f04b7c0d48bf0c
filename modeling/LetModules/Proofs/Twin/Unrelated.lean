import LetModules.Proofs.Pairing.Matching
import LetModules.Proofs.Twin.Outcome

/-!
Unrelated packages do not interfere. A package on which no other depends adds modules to the tree,
and what is resolved for the modules that were there before stays what it was: their ids, their
pairs, their exports, what exists for them and what they import (`undisturbed_append`). All that a
module gets to see lies in its package or in one that this depends on, and those are the same
without the added package (`ModuleTree.WidenedBy`). Only the hints of failed lookups may change,
since a name that stood for nothing may now stand for the added package.
-/

namespace LetModules

/-- The second tree has the packages of the first one and after them others, on which those do not
depend. -/
structure ModuleTree.WidenedBy (S T : ModuleTree) : Prop where
  soundLeft : S.Sound
  soundRight : T.Sound
  packages : S.packages <+: T.packages
  closed : ∀ p ∈ S.packages, ∀ q ∈ T.packages, q.name ∈ p.dependencies → q ∈ S.packages

/-- The module is the same in both trees, and the first one has it. -/
def ModuleTree.Stays (S : ModuleTree) (m n : Module) : Prop := m = n ∧ m ∈ S.modules

namespace ModuleTree.WidenedBy

variable {S T : ModuleTree} (h : S.WidenedBy T)

include h

theorem modules_prefix : S.modules <+: T.modules := by
  obtain ⟨others, split⟩ := h.packages
  rw [h.soundLeft.modules, h.soundRight.modules, h.soundLeft.directories,
    h.soundRight.directories, ← split, Package.directoriesOf, Package.directoriesOf,
    List.flatMap_append, modulesOf_append]
  exact List.prefix_append _ _

theorem mem_right {m : Module} (hm : m ∈ S.modules) : m ∈ T.modules :=
  h.modules_prefix.subset hm

/-- The package of a module is the same in both trees. -/
theorem mem_packages {m : Module} (hm : m ∈ S.modules) {p : Package} (hp : p ∈ T.packages)
    (here : p.id = m.package) : p ∈ S.packages := by
  obtain ⟨q, hq, mine, -⟩ := h.soundLeft.exists_package hm
  obtain rfl := h.soundRight.package_inj hp (h.packages.subset hq) (here.trans mine)
  exact hq

/-- A package of the first tree has no other modules in the second one. -/
theorem mem_of_package {n : Module} (hn : n ∈ T.modules) {p : Package} (hp : p ∈ S.packages)
    (package : n.package = p.id) : n ∈ S.modules := by
  obtain ⟨d, hd, -, there, sits⟩ := h.soundRight.exists_directory hn
  obtain ⟨q, hq, r, its, found, below⟩ := h.soundRight.exists_root hd
  have same : q.id = p.id := by rw [← its, ← sits.package, package]
  obtain rfl := h.soundRight.package_inj hq (h.packages.subset hp) same
  exact h.soundLeft.mem_modules.mpr ⟨d, h.soundLeft.mem_directories hp found below, there⟩

theorem mem_left {m n : Module} (hm : m ∈ S.modules) (hn : n ∈ T.modules)
    (package : n.package = m.package) : n ∈ S.modules := by
  obtain ⟨p, hp, mine, -⟩ := h.soundLeft.exists_package hm
  exact h.mem_of_package hn hp (package.trans mine)

theorem nameOf_eq {m : Module} (hm : m ∈ S.modules) : S.nameOf m = T.nameOf m := by
  obtain ⟨p, hp, mine, -⟩ := h.soundLeft.exists_package hm
  rw [nameOf, nameOf, mine, h.soundLeft.packageName_of_mem hp,
    h.soundRight.packageName_of_mem (h.packages.subset hp)]

/-- In the package of a module the same paths are taken. -/
theorem production?_eq {m : Module} (hm : m ∈ S.modules) (path : List String) :
    S.production? m.package path = T.production? m.package path := by
  ext k
  rw [h.soundLeft.production?_eq_some_iff, h.soundRight.production?_eq_some_iff]
  exact ⟨fun ⟨hk, rest⟩ => ⟨h.mem_right hk, rest⟩,
    fun ⟨hk, root, package, path⟩ => ⟨h.mem_left hm hk package, root, package, path⟩⟩

variable (settings : Settings)

theorem claimed?_eq {t : Module} (ht : t ∈ S.modules) :
    Pairing.claimed? S settings t = Pairing.claimed? T settings t := by
  rw [Pairing.claimed?, Pairing.claimed?]
  simp only [h.production?_eq ht]

/-- A test that stays has the same pair. -/
theorem mem_pairs_iff {t p : Module} (ht : t ∈ S.modules) :
    ⟨t, p⟩ ∈ (Pairing.ofTree S settings).pairs ↔ ⟨t, p⟩ ∈ (Pairing.ofTree T settings).pairs := by
  rw [Pairing.mem_pairs_ofTree_iff h.soundLeft, Pairing.mem_pairs_ofTree_iff h.soundRight,
    h.claimed?_eq settings ht]
  constructor
  · rintro ⟨⟨-, root⟩, claim, least⟩
    refine ⟨⟨h.mem_right ht, root⟩, claim, fun other ho kind claim' => ?_⟩
    -- whoever else claims the module is in its package, and so was there before
    have package := (Pairing.claimed?_fields h.soundRight claim).2.2
    have package' := (Pairing.claimed?_fields h.soundRight claim').2.2
    have before := h.mem_left ht ho (package'.symm.trans package)
    exact least other before kind ((h.claimed?_eq settings before).trans claim')
  · rintro ⟨⟨-, root⟩, claim, least⟩
    refine ⟨⟨ht, root⟩, claim, fun other ho kind claim' => ?_⟩
    exact least other (h.mem_right ho) kind ((h.claimed?_eq settings ho).symm.trans claim')

theorem productionOf_eq {m : Module} (hm : m ∈ S.modules) :
    (Scope.ofTree settings S).pairings.productionOf m.id =
      (Scope.ofTree settings T).pairings.productionOf m.id := by
  ext p
  rw [(Scope.sound_ofTree settings h.soundLeft).productionOf_eq_some_iff hm,
    (Scope.sound_ofTree settings h.soundRight).productionOf_eq_some_iff (h.mem_right hm)]
  exact h.mem_pairs_iff settings hm

theorem testOf_eq {m : Module} (hm : m ∈ S.modules) :
    (Scope.ofTree settings S).pairings.testOf m.id =
      (Scope.ofTree settings T).pairings.testOf m.id := by
  have left := Scope.sound_ofTree settings h.soundLeft
  have right := Scope.sound_ofTree settings h.soundRight
  ext t
  refine (Pairing.testOf_eq_some_iff h.soundLeft).trans
    (Iff.trans ?_ (Pairing.testOf_eq_some_iff h.soundRight).symm)
  refine exists_congr fun pair => and_congr_left fun ⟨same, _⟩ => ⟨fun mem => ?_, fun mem => ?_⟩
  · exact (h.mem_pairs_iff settings (left.pairs pair mem).test).mp mem
  · have fits := right.pairs pair mem
    obtain rfl := h.soundRight.module_inj fits.production (h.mem_right hm) same
    exact (h.mem_pairs_iff settings (h.mem_left hm fits.test fits.package.symm)).mpr mem

theorem dependsOn_iff {r k : Module} (hr : r ∈ S.modules) (hk : k ∈ S.modules) :
    (Registry.ofTree S).dependsOn r.package k.package = true ↔
      (Registry.ofTree T).dependsOn r.package k.package = true := by
  obtain ⟨p, hp, here, -⟩ := h.soundLeft.exists_package hr
  obtain ⟨q, hq, there, -⟩ := h.soundLeft.exists_package hk
  rw [here, there, Registry.dependsOn_ofTree_iff h.soundLeft hp hq,
    Registry.dependsOn_ofTree_iff h.soundRight (h.packages.subset hp) (h.packages.subset hq)]

/-- A dependency of a module that stays was there before. -/
theorem mem_of_dependsOn {r k : Module} (hr : r ∈ S.modules) (hk : k ∈ T.modules)
    (depends : (Registry.ofTree T).dependsOn r.package k.package = true) : k ∈ S.modules := by
  obtain ⟨p, hp, here, -⟩ := h.soundLeft.exists_package hr
  obtain ⟨q, hq, there, -⟩ := h.soundRight.exists_package hk
  rw [here, there, Registry.dependsOn_ofTree_iff h.soundRight (h.packages.subset hp) hq] at depends
  exact h.mem_of_package hk (h.closed p hp q hq depends) there

theorem listed_iff {r k : Module} (hr : r ∈ S.modules) :
    (Scope.ofTree settings S).Listed r k ↔ (Scope.ofTree settings T).Listed r k := by
  constructor
  · rintro ⟨hk, root, package, other⟩
    exact ⟨h.mem_right hk, root, package.imp_right (h.dependsOn_iff hr hk).mp, other⟩
  · rintro ⟨hk, root, package, other⟩
    have before : k ∈ S.modules := package.elim (h.mem_left hr hk) (h.mem_of_dependsOn hr hk)
    exact ⟨before, root, package.imp_right (h.dependsOn_iff hr before).mpr, other⟩

theorem reaches_iff {m k : Module} (hm : m ∈ S.modules) :
    (Scope.ofTree settings S).Reaches m k ↔ (Scope.ofTree settings T).Reaches m k :=
  or_congr_right (exists_congr fun _ => and_congr_left fun _ => h.mem_pairs_iff settings hm)

theorem own_iff {m k : Module} (hm : m ∈ S.modules) {names : List String} :
    (Scope.ofTree settings S).Own m names k ↔ (Scope.ofTree settings T).Own m names k := by
  constructor
  · rintro ⟨hk, package, path, root⟩
    refine ⟨h.mem_right hk, package, path, root.imp_right fun ⟨source, absent⟩ => ⟨source, ?_⟩⟩
    exact fun n hn its => absent n (h.mem_left hm hn its) its
  · rintro ⟨hk, package, path, root⟩
    refine ⟨h.mem_left hm hk package, package, path,
      root.imp_right fun ⟨source, absent⟩ => ⟨source, ?_⟩⟩
    exact fun n hn => absent n (h.mem_right hn)

theorem foreign_iff {m k : Module} (hm : m ∈ S.modules) {name : String} {names : List String} :
    (Scope.ofTree settings S).Foreign m name names k ↔
      (Scope.ofTree settings T).Foreign m name names k := by
  constructor
  · rintro ⟨hk, ⟨p, hp, q, hq, rest⟩, root, path⟩
    exact ⟨h.mem_right hk, ⟨p, h.packages.subset hp, q, h.packages.subset hq, rest⟩, root, path⟩
  · rintro ⟨hk, ⟨p, hp, q, hq, here, there, named, differ, declared⟩, root, path⟩
    have hp' := h.mem_packages hm hp here
    have hq' := h.closed p hp' q hq declared
    exact ⟨h.mem_of_package hk hq' there.symm,
      ⟨p, hp', q, hq', here, there, named, differ, declared⟩, root, path⟩

/-- A path leads from a module that stays to the same module. -/
theorem locate_eq_ok_iff {m t : Module} (hm : m ∈ S.modules) {path : ModulePath} :
    (Scope.ofTree settings S).locate path m = .ok t ↔
      (Scope.ofTree settings T).locate path m = .ok t := by
  have left := Scope.sound_ofTree settings h.soundLeft
  have right := Scope.sound_ofTree settings h.soundRight
  rw [left.locate_eq_ok_iff hm, right.locate_eq_ok_iff (h.mem_right hm)]
  match path.segments with
  | [] => exact Iff.rfl
  | [name] =>
    refine forall_congr' fun k => iff_congr ?_ Iff.rfl
    constructor
    · rintro ⟨hk, named, reaches⟩
      exact ⟨h.mem_right hk, named, (h.reaches_iff settings hm).mp reaches⟩
    · rintro ⟨hk, named, reaches⟩
      exact ⟨h.mem_left hm hk (right.reaches_fields reaches).1, named,
        (h.reaches_iff settings hm).mpr reaches⟩
  | _ :: _ :: _ =>
    exact or_congr (h.own_iff settings hm)
      (and_congr (forall_congr' fun _ => not_congr (h.own_iff settings hm))
        (h.foreign_iff settings hm))

/-- Lookups from a module that stays agree, up to the code of failures. -/
theorem agree_locate {m : Module} (hm : m ∈ S.modules) (path : ModulePath) :
    Agree S.Stays Cause.code ((Scope.ofTree settings S).locate path m)
      ((Scope.ofTree settings T).locate path m) := by
  cases found : (Scope.ofTree settings S).locate path m with
  | ok t =>
    rw [(h.locate_eq_ok_iff settings hm).mp found]
    exact ⟨rfl, (Scope.sound_ofTree settings h.soundLeft).locate_mem hm found⟩
  | error c =>
    cases found' : (Scope.ofTree settings T).locate path m with
    | ok u =>
      exact absurd (found.symm.trans ((h.locate_eq_ok_iff settings hm).mpr found')) (by simp)
    | error c' =>
      exact (Scope.code_of_locate_eq_error found).trans
        (Scope.code_of_locate_eq_error found').symm

/-- The modules that stay look the same in both scopes, and look up the same. -/
theorem correspondence : Correspondence S.Stays Cause.code (Scope.ofTree settings S)
    (Scope.ofTree settings T) where
  left := Scope.sound_ofTree settings h.soundLeft
  right := Scope.sound_ofTree settings h.soundRight
  mem := fun ⟨same, hm⟩ => ⟨hm, same ▸ h.mem_right hm⟩
  unique := fun ⟨same, _⟩ ⟨same', _⟩ => by rw [same, same']
  name := fun ⟨same, hm⟩ => same ▸ h.nameOf_eq hm
  imports := fun ⟨same, _⟩ => same ▸ ⟨rfl, rfl⟩
  offers := fun ⟨same, _⟩ => same ▸ rfl
  admits := fun ⟨same, _⟩ ⟨same', _⟩ _ => by rw [same, same']
  paired := fun ⟨same, ht⟩ ⟨same', _⟩ => same ▸ same' ▸ h.mem_pairs_iff settings ht
  tested := fun ⟨same, ht⟩ => same ▸ exists_congr fun _ => h.mem_pairs_iff settings ht
  locate := fun ⟨same, hm⟩ path => same ▸ h.agree_locate settings hm path
  below := fun ⟨same, _⟩ folds k hk encloses =>
    ⟨same ▸ folds, k, ⟨rfl, hk⟩, same ▸ encloses⟩
  below' := fun {m n} ⟨same, hm⟩ folds l hl encloses => by
    subst same
    exact ⟨folds, l, ⟨rfl, h.mem_left hm hl encloses.1.symm⟩, encloses⟩
  listed := fun ⟨same, hr⟩ k listed =>
    ⟨k, ⟨rfl, listed.mem⟩, same ▸ (h.listed_iff settings hr).mp listed⟩
  listed' := fun {r s} ⟨same, hr⟩ l listed => by
    subst same
    have before := (h.listed_iff settings hr).mpr listed
    exact ⟨l, ⟨rfl, before.mem⟩, before⟩

end ModuleTree.WidenedBy

namespace ModuleTree.Sound

variable {S : ModuleTree} (sound : S.Sound)

include sound

/-- A declaration of a module that stays is its own copy. -/
theorem eq_of_copied {d e : Declaration} (copied : Copied S.Stays d e) : d = e := by
  obtain ⟨m, n, ⟨rfl, hm⟩, hd, he, same⟩ := copied
  obtain ⟨_, -, -, -, sits⟩ := sound.exists_directory hm
  exact List.inj_on_of_nodup_map sits.distinct hd he (congrArg (·.name) same)

theorem export_eq_of_copied {x y : Export} (copied : x.Copied S.Stays y) : x = y := by
  obtain ⟨name, published, origin⟩ := copied
  cases x
  cases y
  rw [Export.mk.injEq]
  exact ⟨name, sound.eq_of_copied published, sound.eq_of_copied origin⟩

theorem binding_eq_of_copied {b b' : Binding} (copied : b.Copied S.Stays b') : b = b' := by
  obtain ⟨localName, imported, declaration, via, target, span⟩ := copied
  cases b
  cases b'
  rw [Binding.mk.injEq]
  exact ⟨localName, imported, sound.eq_of_copied declaration, sound.eq_of_copied via, target.1,
    span⟩

end ModuleTree.Sound

/-- For a module that stays the same modules exist, in the same order. -/
theorem ModuleTree.WidenedBy.visibleModules_eq {S T : ModuleTree} (h : S.WidenedBy T)
    (settings : Settings) {r : Module} (hr : r ∈ S.modules) :
    (Scope.ofTree settings S).linked.visibleModules r =
      (Scope.ofTree settings T).linked.visibleModules r := by
  have c := h.correspondence settings
  rw [← List.forall₂_eq_eq_eq]
  refine forall₂_of_map_eq (c.map_nameOf_visibleModules ⟨rfl, hr⟩) fun m hm n hn same => ?_
  have before := ((c.left.mem_visibleModules hr).mp hm).1.mem
  have listed := ((c.right.mem_visibleModules (h.mem_right hr)).mp hn).1
  have name : S.nameOf m = T.nameOf n := same
  rw [h.nameOf_eq before] at name
  exact h.soundRight.nameOf_inj (h.mem_right before) listed.mem name

namespace Growth

/-- The packages of the tree are among the sources. -/
theorem exists_source {sources : List PackageSource} {p : Package}
    (hp : p ∈ (ofSources sources).tree.packages) :
    ∃ source ∈ sources, source.profile = p.profile := by
  have mem : p.profile ∈ (accepted [] sources).map (·.profile) := by
    rw [← map_profile_ofSources]
    exact List.mem_map_of_mem hp
  obtain ⟨source, hs, same⟩ := List.mem_map.mp mem
  exact ⟨source, (accepted_sublist [] sources).subset hs, same⟩

/-- A further package on which none of the others depends widens the tree, if it is taken. -/
theorem widenedBy_append {sources : List PackageSource} {source : PackageSource}
    (unrelated : ∀ s ∈ sources, source.name ∉ s.dependencies) :
    (ofSources sources).tree.WidenedBy (ofSources (sources ++ [source])).tree := by
  have grown : (ofSources (sources ++ [source])).tree =
      ((sources.foldl add empty).add source).tree := by
    rw [ofSources, List.foldl_append]
    rfl
  have before : (ofSources sources).tree = (sources.foldl add empty).tree := rfl
  refine ⟨sound_ofSources _, sound_ofSources _, ?_, fun p hp q hq declared => ?_⟩
  · rw [grown, before, add]
    split
    · exact List.prefix_append _ _
    · exact List.prefix_refl _
  · rw [grown, add] at hq
    split at hq
    · rcases List.mem_append.mp hq with there | added
      · exact there
      · obtain ⟨s, hs, same⟩ := exists_source hp
        have dependencies : s.dependencies = p.dependencies :=
          congrArg PackageProfile.dependencies same
        rw [List.mem_singleton.mp added, ← dependencies] at declared
        exact absurd declared (unrelated s hs)
    · exact hq

end Growth

/-- All that is resolved for the modules of `r` is the same in `r'`, where there may be more: ids,
pairs, exports, what exists and what is bound. Failed imports have the same code. -/
structure Resolution.Undisturbed (r r' : Resolution) : Prop where
  modules : r.tree.modules <+: r'.tree.modules
  productionOf : ∀ m ∈ r.tree.modules,
    r.pairings.productionOf m.id = r'.pairings.productionOf m.id
  testOf : ∀ m ∈ r.tree.modules, r.pairings.testOf m.id = r'.pairings.testOf m.id
  exports : ∀ m ∈ r.tree.modules,
    r.exports.ofModule r.pairings m = r'.exports.ofModule r'.pairings m
  visible : ∀ m ∈ r.tree.modules, r.visibleModules m = r'.visibleModules m
  sites : ∀ m ∈ r.tree.modules, ∀ i j,
    Option.Rel (Agree (· = ·) fun p : Problem => p.cause.code) (r.binding? ⟨m.id, i, j⟩)
      (r'.binding? ⟨m.id, i, j⟩)

/-- A further package does not disturb others that do not depend on it, whether it is taken or
refused. -/
theorem undisturbed_append (settings : Settings) {sources : List PackageSource}
    {source : PackageSource} (unrelated : ∀ s ∈ sources, source.name ∉ s.dependencies) :
    (Resolution.ofSources settings sources).Undisturbed
      (Resolution.ofSources settings (sources ++ [source])) := by
  have widened := Growth.widenedBy_append unrelated
  have c := widened.correspondence settings
  have sound := widened.soundLeft
  constructor
  case modules => exact widened.modules_prefix
  case productionOf => exact fun m hm => widened.productionOf_eq settings hm
  case testOf => exact fun m hm => widened.testOf_eq settings hm
  case exports =>
    intro m hm
    have copied := c.forall₂_ofModule ⟨rfl, hm⟩
    have same := copied.imp fun _ _ copied => sound.export_eq_of_copied copied
    rwa [List.forall₂_eq_eq_eq] at same
  case visible => exact fun m hm => widened.visibleModules_eq settings hm
  case sites =>
    intro m hm i j
    have sites := c.rel_binding? ⟨rfl, hm⟩ i j fun _ k l _ stays _ _ => by rw [stays.1]
    refine rel_imp (fun _ _ agree => ?_) sites
    exact agree.imp (fun _ _ copied => sound.binding_eq_of_copied copied) fun _ _ same =>
      congrArg Prod.fst same

/-- A tested module, and one that imports from it, and in vain from the package `tools`. -/
def Resolution.Undisturbed.sample : List PackageSource :=
  let store : ModuleSource := ⟨"Store", none, [⟨"get", .public, .function, none, none⟩], []⟩
  let main : ModuleSource := ⟨"Main", none, [],
    [⟨⟨["Store"], none⟩, [⟨"get", none, none⟩], none⟩,
      ⟨⟨["tools", "Api"], none⟩, [⟨"run", none, none⟩], none⟩]⟩
  let storeTest : ModuleSource := ⟨"StoreTest", none, [], []⟩
  [⟨"app", [], ⟨"src", [store, main], []⟩, some ⟨"test", [storeTest], []⟩⟩]

/-- The package `tools`, which has a module of the name that the sample looks for. -/
def Resolution.Undisturbed.tools : PackageSource :=
  let api : ModuleSource := ⟨"Api", none, [⟨"run", .public, .function, none, none⟩], []⟩
  ⟨"tools", [], ⟨"src", [api], []⟩, none⟩

/-- The sample gets nothing from `tools` when that is there either, only another hint. -/
theorem undisturbed_append_sample :
    let sources := Resolution.Undisturbed.sample
    let r := Resolution.ofSources .standard sources
    let r' := Resolution.ofSources .standard (sources ++ [Resolution.Undisturbed.tools])
    (∀ s ∈ sources, Resolution.Undisturbed.tools.name ∉ s.dependencies) ∧
      r'.tree.packages.length = 2 ∧ r.pairings.length = 1 ∧
      (r.binding? ⟨⟨1⟩, 0, 0⟩).map (·.isOk) = some true ∧
      (r.binding? ⟨⟨1⟩, 1, 0⟩).map (·.isOk) = some false ∧ r.problems ≠ r'.problems ∧
      r.Undisturbed r' := by
  intro sources r r'
  have unrelated : ∀ s ∈ sources, Resolution.Undisturbed.tools.name ∉ s.dependencies := by decide
  exact ⟨unrelated, by decide +kernel, by decide +kernel, by decide +kernel, by decide +kernel,
    by decide +kernel, undisturbed_append .standard unrelated⟩

end LetModules
