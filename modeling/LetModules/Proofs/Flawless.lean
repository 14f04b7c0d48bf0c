import LetModules.Proofs.Binding.Account
import LetModules.Proofs.Pairing.Matching
import LetModules.Proofs.Reexport.Report
import LetModules.Proofs.Tree.Atomicity
import LetModules.Proofs.Tree.Profile

/-!
No silent failure and no false alarm. Resolving reports nothing if and only if nothing is wrong with
the packages: all are taken, with dependencies that are there and declarations of different names,
all claims of tests are met, all re-exports stand for something, all statements have targets, and
all items are bound, to different local names (`problems_eq_nil_iff_flawless`). Each step reports
exactly what goes wrong in it, and each has a lemma that says so.
-/

namespace LetModules

namespace Growth

/-- All packages are in the tree if and only if all are accepted. -/
theorem map_profile_eq_iff (sources : List PackageSource) :
    (ofSources sources).tree.packages.map (·.profile) = sources.map (·.profile) ↔
      accepted [] sources = sources := by
  rw [map_profile_ofSources]
  refine ⟨fun same => (accepted_sublist [] sources).eq_of_length ?_, fun same => by rw [same]⟩
  simpa using congrArg List.length same

/-- Packages are added without a problem if they are accepted and repeat no declaration. -/
theorem problems_foldl_eq_nil_iff : ∀ (sources : List PackageSource) (growth : Growth),
    (sources.foldl add growth).problems = [] ↔ growth.problems = [] ∧
      accepted (growth.tree.packages.map (·.name)) sources = sources ∧
        ∀ source ∈ sources, source.redeclarations = []
  | [], growth => by simp [accepted]
  | source :: rest, growth => by
    rw [List.foldl_cons, problems_foldl_eq_nil_iff rest, List.forall_mem_cons, accepted]
    cases refused : growth.tree.refusals source with
    | nil =>
      have names : (growth.add source).tree.packages.map (·.name) =
          growth.tree.packages.map (·.name) ++ [source.name] := by
        rw [add, refused]
        exact List.map_append
      have problems : (growth.add source).problems = growth.problems ++ source.redeclarations := by
        rw [add, refused]
      rw [if_pos ((growth.tree.refusals_eq_nil_iff source).mp refused), names, problems,
        List.append_eq_nil_iff, List.cons.injEq]
      tauto
    | cons problem problems =>
      have out : ¬ (source.name ∉ growth.tree.packages.map (·.name) ∧ source.conflicts = []) := by
        rw [← growth.tree.refusals_eq_nil_iff, refused]
        exact List.cons_ne_nil _ _
      have reported : (growth.add source).problems ≠ [] := by
        rw [add, refused]
        exact List.append_ne_nil_of_right_ne_nil _ (List.cons_ne_nil _ _)
      have dropped : accepted (growth.tree.packages.map (·.name)) rest ≠ source :: rest := by
        intro same
        have shorter := (accepted_sublist (growth.tree.packages.map (·.name)) rest).length_le
        rw [same, List.length_cons] at shorter
        omega
      rw [if_neg out]
      exact ⟨fun h => absurd h.1 reported, fun h => absurd h.2.1 dropped⟩

end Growth

namespace ModuleTree

/-- No dependency is missing if each names a package of the tree. -/
theorem unknownPackages_eq_nil_iff (tree : ModuleTree) : tree.unknownPackages = [] ↔
    ∀ p ∈ tree.packages, ∀ name ∈ p.dependencies, ∃ q ∈ tree.packages, q.name = name := by
  rw [unknownPackages, List.flatMap_eq_nil_iff]
  refine forall₂_congr fun p _ => ?_
  rw [List.map_eq_nil_iff, List.filter_eq_nil_iff]
  refine forall₂_congr fun name _ => ?_
  simp [packageNamed?]

end ModuleTree

/-- No declaration of a package repeats another one if the names in each file differ. -/
theorem PackageSource.redeclarations_eq_nil_iff (source : PackageSource) :
    source.redeclarations = [] ↔
      ∀ entry ∈ source.ownedFiles, (entry.1.declarations.map (·.name)).Nodup := by
  rw [redeclarations_eq, List.flatMap_eq_nil_iff]
  refine forall₂_congr fun (file, path) _ => ?_
  dsimp only
  rw [← ModuleSource.redeclarations_eq, ModuleSource.redeclarations, List.map_eq_nil_iff,
    repeatsBy_eq_nil_iff]
  simp

namespace Growth

/-- Growing reports nothing if all packages are taken, with dependencies that are there and without
repeated declarations. -/
theorem problems_ofSources_eq_nil_iff (sources : List PackageSource) :
    (ofSources sources).problems = [] ↔
      (ofSources sources).tree.packages.map (·.profile) = sources.map (·.profile) ∧
      (∀ source ∈ sources, ∀ name ∈ source.dependencies,
        ∃ p ∈ (ofSources sources).tree.packages, p.name = name) ∧
      ∀ source ∈ sources, ∀ entry ∈ source.ownedFiles,
        (entry.1.declarations.map (·.name)).Nodup := by
  have problems : (ofSources sources).problems =
      (sources.foldl add empty).problems ++ (ofSources sources).tree.unknownPackages := rfl
  rw [problems, List.append_eq_nil_iff, problems_foldl_eq_nil_iff,
    ModuleTree.unknownPackages_eq_nil_iff, map_profile_eq_iff, and_assoc, and_assoc]
  simp only [PackageSource.redeclarations_eq_nil_iff]
  refine (and_iff_right rfl).trans (and_congr_right fun all => ?_)
  -- the dependencies in the tree are those that the sources declare
  have declared : (ofSources sources).tree.packages.map (·.dependencies) =
      sources.map (·.dependencies) := by
    have profiles := congrArg (List.map PackageProfile.dependencies)
      ((map_profile_eq_iff sources).mpr all)
    rwa [List.map_map, List.map_map] at profiles
  refine and_comm.trans (and_congr_left fun _ => ⟨fun there source hs => ?_, fun there p hp => ?_⟩)
  · have mem : source.dependencies ∈ sources.map (·.dependencies) := List.mem_map_of_mem hs
    obtain ⟨p, hp, same⟩ := List.mem_map.mp (declared ▸ mem)
    exact same ▸ there p hp
  · have mem : p.dependencies ∈ (ofSources sources).tree.packages.map (·.dependencies) :=
      List.mem_map_of_mem hp
    obtain ⟨source, hs, same⟩ := List.mem_map.mp (declared ▸ mem)
    exact same ▸ there source hs

end Growth

namespace Resolution

variable (settings : Settings) (sources : List PackageSource)

/-- Nothing is wrong with the packages. -/
structure Flawless (settings : Settings) (sources : List PackageSource) (r : Resolution) :
    Prop where
  /-- Each package is in the tree, in its place. -/
  packages : r.tree.packages.map (·.profile) = sources.map (·.profile)
  dependencies : ∀ source ∈ sources, ∀ name ∈ source.dependencies,
    ∃ p ∈ r.tree.packages, p.name = name
  declarations : ∀ source ∈ sources, ∀ entry ∈ source.ownedFiles,
    (entry.1.declarations.map (·.name)).Nodup
  pairings : ∀ test production, Pairing.Claimant r.tree settings production test →
    ⟨test, production⟩ ∈ r.pairings
  reexports : ∀ d ∈ r.tree.declarations, d.isReexport = true → ∃ o, r.exports.originOf d = some o
  /-- Also a statement without items has a target. -/
  statements : ∀ m ∈ r.tree.modules, ∀ statement ∈ m.imports,
    ∃ target, r.toLinked.target statement.path m = .ok target
  bindings : ∀ entry ∈ r.bindings, ∃ b, entry.2 = .ok b
  localNames : ∀ m ∈ r.tree.modules, ((r.bindingsOf m.id).map (·.localName)).Nodup

/-- Nothing is reported about imports if all statements have targets, and all items are bound, to
different local names. -/
theorem problems_imports_eq_nil_iff :
    ((ofSources settings sources).tree.modules.map
      (ModuleImports.ofModule (ofSources settings sources).toLinked)).flatMap (·.problems) = [] ↔
      (∀ m ∈ (ofSources settings sources).tree.modules, ∀ statement ∈ m.imports,
        ∃ target, (ofSources settings sources).toLinked.target statement.path m = .ok target) ∧
      (∀ entry ∈ (ofSources settings sources).bindings, ∃ b, entry.2 = .ok b) ∧
      ∀ m ∈ (ofSources settings sources).tree.modules,
        (((ofSources settings sources).bindingsOf m.id).map (·.localName)).Nodup := by
  have names : ∀ m ∈ (ofSources settings sources).tree.modules,
      ((ofSources settings sources).bindingsOf m.id).map (·.localName) =
        ModuleImports.localNames
          (ModuleImports.ofModule (ofSources settings sources).toLinked m).sites :=
    fun m hm => congrArg _ (bindingsOf_eq settings sources hm)
  rw [List.flatMap_map, List.flatMap_eq_nil_iff, bindings_eq]
  simp only [ModuleImports.problems_ofModule_eq_nil_iff]
  constructor
  · intro clear
    refine ⟨fun m hm => (clear m hm).1, fun entry mem => ?_, fun m hm => ?_⟩
    · obtain ⟨m, hm, mem⟩ := List.mem_flatMap.mp mem
      exact (clear m hm).2.1 entry mem
    · rw [names m hm]
      exact (clear m hm).2.2
  · rintro ⟨targets, bound, distinct⟩ m hm
    exact ⟨targets m hm, fun entry mem => bound entry (List.mem_flatMap.mpr ⟨m, hm, mem⟩),
      names m hm ▸ distinct m hm⟩

/-- No problem is reported if and only if nothing is wrong. -/
theorem problems_eq_nil_iff_flawless : (ofSources settings sources).problems = [] ↔
    (ofSources settings sources).Flawless settings sources := by
  have tree := Growth.sound_ofSources sources
  have steps : (ofSources settings sources).problems =
      (Growth.ofSources sources).problems ++
        (Pairing.ofTree (Growth.ofSources sources).tree settings).problems ++
        (Exports.ofScope (ofSources settings sources).toScope).2 ++
        ((ofSources settings sources).tree.modules.map
          (ModuleImports.ofModule (ofSources settings sources).toLinked)).flatMap (·.problems) :=
    rfl
  rw [steps, List.append_eq_nil_iff, List.append_eq_nil_iff, List.append_eq_nil_iff,
    Growth.problems_ofSources_eq_nil_iff, Pairing.problems_ofTree_eq_nil_iff tree,
    Reexport.problems_ofScope_eq_nil_iff (sound_ofSources settings sources).tree,
    problems_imports_eq_nil_iff]
  constructor
  · rintro ⟨⟨⟨⟨packages, dependencies, declarations⟩, pairings⟩, reexports⟩, statements, bindings,
      localNames⟩
    refine ⟨packages, dependencies, declarations, pairings, fun d mem reexport => ?_, statements,
      bindings, localNames⟩
    obtain ⟨m, hm, -, declared⟩ := tree.exists_owner mem
    exact Option.ne_none_iff_exists'.mp (reexports ⟨m, d⟩ ⟨hm, declared, reexport⟩)
  · rintro ⟨packages, dependencies, declarations, pairings, reexports, statements, bindings,
      localNames⟩
    refine ⟨⟨⟨⟨packages, dependencies, declarations⟩, pairings⟩, fun m of => ?_⟩, statements,
      bindings, localNames⟩
    exact Option.ne_none_iff_exists'.mpr (reexports _ (of.mem tree) of.reexport)

end Resolution

end LetModules
