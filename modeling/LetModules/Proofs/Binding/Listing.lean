import LetModules.Proofs.Twin.Outcome

/-!
What can be imported is listed. The list of modules that exist for a requester is a filter over all
modules of the tree; an import gets to its target by walking directories, by a bare name or through
a dependency. The two agree: the listing has every production module that the requester can import
from without testing it, each once and in strict order of package name and path
(`completeListing_visibleModules`).
-/

namespace LetModules

namespace ModuleTree

/-- A package declares a dependency on another one. -/
def Declares (tree : ModuleTree) (dependent dependency : PackageId) : Prop :=
  ∃ p ∈ tree.packages, ∃ q ∈ tree.packages,
    p.id = dependent ∧ q.id = dependency ∧ q.name ∈ p.dependencies

/-- Strictly before, by package name and then by path. -/
def Precedes (tree : ModuleTree) (m n : Module) : Prop :=
  tree.packageName m.package < tree.packageName n.package ∨
    tree.packageName m.package = tree.packageName n.package ∧ m.path < n.path

end ModuleTree

/-- A listing of the production modules that exist for a requester, from which it can see all that
it imports from. -/
structure CompleteListing (r : Resolution) (requester : Module) (listed : List Module) : Prop where
  increasing : listed.Pairwise r.tree.Precedes
  distinct : listed.Nodup
  /-- Listed are the other production modules of the own package and of those it declares a
  dependency on, as far as they exist for the requester. -/
  exact : ∀ m, m ∈ listed ↔ (m ∈ r.tree.modules ∧ m.root = .source ∧ m ≠ requester ∧
    (m.package = requester.package ∨ r.tree.Declares requester.package m.package)) ∧
      r.hasModule m requester = true
  /-- Only a test imports from a production module that is not listed for it: from the one that it
  tests. -/
  statements : ∀ path target, r.target path requester = .ok target → target.root = .source →
    ⟨requester, target⟩ ∈ r.pairings ∨ target ∈ listed
  bindings : ∀ site b, (site, .ok b) ∈ r.bindings → site.module = requester.id →
    b.target.root = .source → ⟨requester, b.target⟩ ∈ r.pairings ∨ b.target ∈ listed

namespace Scope.Sound

variable {scope : Scope} (sound : scope.Sound)

include sound

theorem dependsOn_iff_declares {m n : Module} (hm : m ∈ scope.tree.modules)
    (hn : n ∈ scope.tree.modules) :
    scope.registry.dependsOn m.package n.package = true ↔
      scope.tree.Declares m.package n.package := by
  obtain ⟨p, hp, mine, -⟩ := sound.tree.exists_package hm
  obtain ⟨q, hq, its, -⟩ := sound.tree.exists_package hn
  rw [sound.registry, mine, its, Registry.dependsOn_ofTree_iff sound.tree hp hq]
  constructor
  · exact fun named => ⟨p, hp, q, hq, rfl, rfl, named⟩
  · rintro ⟨p', hp', q', hq', same, same', named⟩
    obtain rfl := sound.tree.package_inj hp' hp same
    obtain rfl := sound.tree.package_inj hq' hq same'
    exact named

/-- Which modules are listed, by the dependencies that packages declare. -/
theorem mem_visibleModules_iff {r m : Module} (hr : r ∈ scope.tree.modules) :
    m ∈ scope.linked.visibleModules r ↔ (m ∈ scope.tree.modules ∧ m.root = .source ∧ m ≠ r ∧
      (m.package = r.package ∨ scope.tree.Declares r.package m.package)) ∧
        scope.linked.hasModule m r = true := by
  rw [sound.mem_visibleModules hr]
  refine and_congr_left fun _ => ?_
  constructor
  · rintro ⟨hm, root, package, differ⟩
    exact ⟨hm, root, differ, package.imp_right (sound.dependsOn_iff_declares hr hm).mp⟩
  · rintro ⟨hm, root, differ, package⟩
    exact ⟨hm, root, package.imp_right (sound.dependsOn_iff_declares hr hm).mpr, differ⟩

theorem nodup_visibleModules (r : Module) : (scope.linked.visibleModules r).Nodup :=
  (List.mergeSort_perm _ _).nodup_iff.mpr ((sound.tree.nodup_modules.filter _).filter _)

/-- A listing is in strict order: two production modules of one package differ in their paths. -/
theorem pairwise_visibleModules {r : Module} (hr : r ∈ scope.tree.modules) :
    (scope.linked.visibleModules r).Pairwise scope.tree.Precedes := by
  have byName : scope.linked.listedBefore = fun a b =>
      ModuleName.inOrder (scope.tree.nameOf a) (scope.tree.nameOf b) := rfl
  have ordered : (scope.linked.visibleModules r).Pairwise fun a b =>
      ModuleName.inOrder (scope.tree.nameOf a) (scope.tree.nameOf b) = true := by
    rw [Linked.visibleModules, byName]
    exact List.pairwise_mergeSort (fun a b c => ModuleName.inOrder_trans (scope.tree.nameOf a)
      (scope.tree.nameOf b) (scope.tree.nameOf c)) (fun a b => ModuleName.inOrder_total _ _) _
  refine (ordered.and (sound.nodup_visibleModules r)).imp_of_mem ?_
  rintro a b ha hb ⟨order, differ⟩
  obtain ⟨⟨hma, roota, -⟩, -⟩ := (sound.mem_visibleModules_iff hr).mp ha
  obtain ⟨⟨hmb, rootb, -⟩, -⟩ := (sound.mem_visibleModules_iff hr).mp hb
  refine (ModuleName.inOrder_iff.mp order).imp_right fun both => ⟨both.1, ?_⟩
  obtain ⟨package, path⟩ := both
  refine lt_of_le_of_ne (Text.inOrder_iff.mp path) fun same => differ ?_
  exact sound.tree.module_eq_of_path_eq hma hmb (sound.tree.packageName_inj hma hmb package)
    (roota.trans rootb.symm) same

/-- A production module from which a statement imports is tested by the importer or listed for
it. -/
theorem mem_visibleModules_of_target {r target : Module} (hr : r ∈ scope.tree.modules)
    {path : ModulePath} (found : scope.linked.target path r = .ok target)
    (root : target.root = .source) :
    ⟨r, target⟩ ∈ scope.pairings ∨ target ∈ scope.linked.visibleModules r := by
  obtain ⟨located, elsewhere, permitted⟩ := Linked.target_eq_ok_iff.mp found
  obtain ⟨ht, place⟩ := sound.locate_fields hr located
  rcases Bool.or_eq_true .. ▸ permitted with privileged | hasModule
  · exact .inl ((sound.isPrivileged_iff hr ht).mp privileged)
  · refine .inr ((sound.mem_visibleModules_iff hr).mpr ⟨⟨ht, root, ?_, ?_⟩, hasModule⟩)
    · exact fun same => elsewhere (same ▸ rfl)
    · exact place.imp And.left fun ⟨_, _, declared⟩ => declared

end Scope.Sound

namespace Resolution

variable (settings : Settings) (sources : List PackageSource)

/-- The modules that exist for a requester are listed completely. -/
theorem completeListing_visibleModules {requester : Module}
    (mem : requester ∈ (ofSources settings sources).tree.modules) :
    CompleteListing (ofSources settings sources) requester
      ((ofSources settings sources).visibleModules requester) := by
  have sound := sound_ofSources settings sources
  have statements : ∀ path target,
      (ofSources settings sources).target path requester = .ok target → target.root = .source →
        ⟨requester, target⟩ ∈ (ofSources settings sources).pairings ∨
          target ∈ (ofSources settings sources).visibleModules requester :=
    fun _ _ found root => sound.mem_visibleModules_of_target mem found root
  refine ⟨sound.pairwise_visibleModules mem, sound.nodup_visibleModules requester,
    fun m => sound.mem_visibleModules_iff mem, statements, fun site b bound own root => ?_⟩
  obtain ⟨importer, hi, statement, item, same, -, -, result⟩ :=
    (mem_bindings_iff settings sources).mp bound
  obtain rfl := sound.tree.module_inj hi mem (same.symm.trans own)
  obtain ⟨target, found, binding⟩ := Linked.result_eq_ok_iff.mp result.symm
  have ht := sound.locate_mem hi (Linked.target_eq_ok_iff.mp found).1
  obtain ⟨_, -, -, -, sits⟩ := sound.tree.exists_directory ht
  obtain ⟨_, _, -, rfl⟩ := (Linked.bind_eq_ok_iff sits.distinct).mp binding
  exact statements statement.path target found root

/-- A library with a module that shows nothing outside, and an application that depends on it. -/
def listingSample : List PackageSource :=
  let store : ModuleSource := ⟨"Store", none, [⟨"get", .public, .function, none, none⟩], []⟩
  let cache : ModuleSource := ⟨"Cache", none, [⟨"put", .internal, .function, none, none⟩], []⟩
  let helper : ModuleSource := ⟨"Helper", none, [⟨"help", .internal, .function, none, none⟩], []⟩
  let main : ModuleSource := ⟨"Main", none, [],
    [⟨⟨["lib", "Store"], none⟩, [⟨"get", none, none⟩], none⟩,
      ⟨⟨["Helper"], none⟩, [⟨"help", none, none⟩], none⟩]⟩
  [⟨"lib", [], ⟨"src", [store, cache], []⟩, none⟩,
    ⟨"app", ["lib"], ⟨"src", [main, helper], []⟩, none⟩]

/-- In the sample `Main` imports from `Store` and has it in its listing, but not `Cache`. -/
theorem completeListing_visibleModules_sample :
    ∃ main ∈ (ofSources .standard listingSample).tree.modules,
      (∃ site b, (site, .ok b) ∈ (ofSources .standard listingSample).bindings ∧
        b.target.name = "Store" ∧
          b.target ∈ (ofSources .standard listingSample).visibleModules main) ∧
      (∀ m ∈ (ofSources .standard listingSample).visibleModules main, m.name ≠ "Cache") ∧
      CompleteListing (ofSources .standard listingSample) main
        ((ofSources .standard listingSample).visibleModules main) := by
  let get : Declaration := ⟨⟨"get", .public, .function, none, none⟩, ⟨0⟩, ⟨0⟩⟩
  let store : Module := ⟨⟨0⟩, "Store", ["Store"], ⟨0⟩, ⟨0⟩, .source, false, [get], [], none⟩
  let main : Module := ⟨⟨2⟩, "Main", ["Main"], ⟨1⟩, ⟨1⟩, .source, false, [],
    [⟨⟨["lib", "Store"], none⟩, [⟨"get", none, none⟩], none⟩,
      ⟨⟨["Helper"], none⟩, [⟨"help", none, none⟩], none⟩], none⟩
  have mem : main ∈ (ofSources .standard listingSample).tree.modules := by decide +kernel
  have bound : (⟨⟨2⟩, 0, 0⟩, .ok ⟨"get", "get", get, get, store, none⟩) ∈
      (ofSources .standard listingSample).bindings := by decide +kernel
  have untested : (ofSources .standard listingSample).pairings = [] := by decide +kernel
  have hidden : ∀ m ∈ (ofSources .standard listingSample).tree.modules,
      (ofSources .standard listingSample).hasModule m main = true → m.name ≠ "Cache" := by
    decide +kernel
  have complete := completeListing_visibleModules .standard listingSample mem
  refine ⟨main, mem, ⟨_, _, bound, rfl, ?_⟩, fun m hm => ?_, complete⟩
  · exact (complete.bindings _ _ bound rfl rfl).resolve_left (by simp [untested])
  · obtain ⟨⟨there, -⟩, found⟩ := (complete.exact m).mp hm
    exact hidden m there found

end Resolution

end LetModules
