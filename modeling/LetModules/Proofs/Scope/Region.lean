import LetModules.Proofs.Scope.Search
import LetModules.Proofs.Scope.Walk
import LetModules.Proofs.Tree.Lookup

/-!
What lookups reach, said of the modules of a sound tree and their paths. A walk from a root finds
the module of that root with the path (`walk_root_eq_ok_iff`); a search from a directory finds the
modules of a name that the directory encloses (`modulesNamed_eq_filter`).
-/

namespace LetModules

open Directory (modulesOf)

/-- A sublist of a list without repetitions is what a test picks that tells its members. -/
theorem eq_filter_of_sublist {p : α → Bool} {first second : List α}
    (sub : first.Sublist second) (distinct : second.Nodup)
    (picks : ∀ a ∈ second, p a = true ↔ a ∈ first) : first = second.filter p := by
  induction sub with
  | slnil => rfl
  | @cons first second a sub ih =>
    obtain ⟨fresh, distinct⟩ := List.nodup_cons.mp distinct
    have out : p a = false := by
      by_contra inside
      exact fresh (sub.subset ((picks a List.mem_cons_self).mp (by simpa using inside)))
    rw [List.filter_cons_of_neg (by simp [out])]
    exact ih distinct fun b hb => picks b (List.mem_cons_of_mem _ hb)
  | @cons_cons first second a sub ih =>
    obtain ⟨fresh, distinct⟩ := List.nodup_cons.mp distinct
    rw [List.filter_cons_of_pos ((picks a List.mem_cons_self).mpr List.mem_cons_self)]
    refine congrArg (a :: ·) (ih distinct fun b hb => ?_)
    rw [picks b (List.mem_cons_of_mem _ hb), List.mem_cons]
    exact or_iff_right fun same => fresh (same ▸ hb)

/-- What picked entries yield can be read off all of them, if the others yield nothing. -/
theorem flatMap_filter_eq {q : α → Bool} {f g : α → List β} : ∀ {entries : List α},
    (∀ a ∈ entries, q a = true → f a = g a) → (∀ a ∈ entries, q a = false → g a = []) →
      (entries.filter q).flatMap f = entries.flatMap g
  | [], _, _ => rfl
  | a :: rest, same, empty => by
    have ih := flatMap_filter_eq (fun b hb => same b (List.mem_cons_of_mem _ hb))
      (fun b hb => empty b (List.mem_cons_of_mem _ hb))
    cases picked : q a with
    | true =>
      rw [List.filter_cons_of_pos picked, List.flatMap_cons, List.flatMap_cons, ih,
        same a List.mem_cons_self picked]
    | false =>
      rw [List.filter_cons_of_neg (by simp [picked]), List.flatMap_cons, ih,
        empty a List.mem_cons_self picked, List.nil_append]

instance (m n : Module) : Decidable (m.Encloses n) := inferInstanceAs (Decidable (_ ∧ _))

instance (d e : Directory) : Decidable (d.Encloses e) := inferInstanceAs (Decidable (_ ∧ _))

namespace ModuleTree.Sound

variable {tree : ModuleTree} (sound : tree.Sound)

include sound

/-- No module has the empty path: roots are never folded. -/
theorem path_ne_nil {m : Module} (mem : m ∈ tree.modules) : m.path ≠ [] := by
  obtain ⟨d, hd, -, hm, sits⟩ := sound.exists_directory mem
  rw [sits.path]
  split
  · rename_i folds
    obtain ⟨p, hp, r, -, hr, below⟩ := sound.exists_root hd
    rcases Directory.exists_parent below with rfl | ⟨parent, above, hc⟩
    · have orphan := ((sound.rooted p hp).rootOf hr).parent
      exact absurd folds (by simp [(sound.shaped d hd).unfolded orphan m hm])
    · have shaped := sound.shaped parent (sound.mem_directories hp hr above)
      simp [shaped.path d hc]
  · simp

/-- A walk from a root finds the module of that root with the path. -/
theorem walk_root_eq_ok_iff {p : Package} (hp : p ∈ tree.packages) {root : Root} {r : Directory}
    (hr : p.root? root = some r) {names : List String} {m : Module} :
    r.walk names = .ok m ↔
      m ∈ tree.modules ∧ m.package = p.id ∧ m.root = root ∧ m.path = names := by
  have root_path : r.path = [] := ((sound.rooted p hp).rootOf hr).path
  rw [Directory.walk_eq_ok_iff (sound.orderly_root hp hr), root_path, List.nil_append]
  constructor
  · rintro ⟨-, d, below, hm, path⟩
    obtain ⟨hd, package, kind⟩ := (sound.mem_subtree_root_iff hp hr).mp below
    have sits := sound.sits hd hm
    exact ⟨sound.mem_modules.mpr ⟨d, hd, hm⟩, sits.package.trans package, sits.root.trans kind,
      path⟩
  · rintro ⟨mem, package, kind, rfl⟩
    obtain ⟨d, hd, -, hm, sits⟩ := sound.exists_directory mem
    refine ⟨sound.path_ne_nil mem, d, (sound.mem_subtree_root_iff hp hr).mpr ⟨hd, ?_, ?_⟩, hm, rfl⟩
    · exact sits.package.symm.trans package
    · exact sits.root.symm.trans kind

/-- Package, root and path name one module at most. -/
theorem module_eq_of_path_eq {m n : Module} (hm : m ∈ tree.modules) (hn : n ∈ tree.modules)
    (package : m.package = n.package) (root : m.root = n.root) (path : m.path = n.path) :
    m = n := by
  obtain ⟨p, hp, mine, isSome⟩ := sound.exists_package hm
  obtain ⟨r, hr⟩ := Option.isSome_iff_exists.mp isSome
  have toM := (sound.walk_root_eq_ok_iff hp hr).mpr ⟨hm, mine, rfl, rfl⟩
  have toN := (sound.walk_root_eq_ok_iff hp hr).mpr
    ⟨hn, package.symm.trans mine, root.symm, path.symm⟩
  exact Except.ok.inj (toM.symm.trans toN)

/-- A path names one production module of a package at most. -/
theorem production?_eq_some_iff {package : PackageId} {path : List String} {m : Module} :
    tree.production? package path = some m ↔
      m ∈ tree.modules ∧ m.root = .source ∧ m.package = package ∧ m.path = path := by
  constructor
  · intro found
    have held := List.find?_some found
    simp only [Module.isProduction, Bool.and_eq_true, decide_eq_true_eq] at held
    exact ⟨List.mem_of_find?_eq_some found, held.1.1, held.1.2, held.2⟩
  · rintro ⟨mem, root, rfl, rfl⟩
    have some_found : (tree.production? m.package m.path).isSome := by
      rw [production?, List.find?_isSome]
      exact ⟨m, mem, by simp [Module.isProduction, root]⟩
    obtain ⟨n, found⟩ := Option.isSome_iff_exists.mp some_found
    have held := List.find?_some found
    simp only [Module.isProduction, Bool.and_eq_true, decide_eq_true_eq] at held
    rw [found, sound.module_eq_of_path_eq (List.mem_of_find?_eq_some found) mem held.1.2
      (held.1.1.trans root.symm) held.2]

theorem nodup_directories : tree.directories.Nodup :=
  sound.numbered.directories.nodup.of_map _

theorem nodup_ids : (tree.modules.map (·.id)).Nodup := by
  refine List.Nodup.of_map (·.index) ?_
  rw [List.map_map]
  exact sound.numbered_modules.nodup

theorem nodup_modules : tree.modules.Nodup := sound.nodup_ids.of_map _

/-- The modules of a name in and below the directory of a module, in the order of the tree. -/
theorem modulesNamed_eq_filter {a : Module} (ha : a ∈ tree.modules) {d : Directory}
    (found : tree.directory? a.directory = some d) (name : String) :
    d.modulesNamed name = tree.modules.filter fun m => a.Encloses m ∧ m.name = name := by
  obtain ⟨hd, -⟩ := sound.directory?_eq_some_iff.mp found
  obtain ⟨d', -, found', -, sits⟩ := sound.exists_directory ha
  obtain rfl := Option.some.inj (found.symm.trans found')
  have below : d.subtree = tree.directories.filter fun e => d.Encloses e :=
    eq_filter_of_sublist (sound.subtree_sublist hd) sound.nodup_directories fun e he => by
      rw [decide_eq_true_eq, sound.mem_subtree_iff hd]
      simp [he]
  rw [Directory.modulesNamed_eq_flatMap (sound.orderly hd), below, sound.modules, modulesOf,
    List.filter_flatMap]
  refine flatMap_filter_eq (fun e he inside => List.filter_congr fun m hm => ?_)
    (fun e he outside => List.filter_eq_nil_iff.mpr fun m hm => ?_)
  all_goals
    have sits' := sound.sits he hm
    have same : a.Encloses m ↔ d.Encloses e := by
      simp only [Directory.Encloses, Module.Encloses, sits.package, sits.root,
        sits.directoryPath, sits'.package, sits'.root, sits'.directoryPath]
  · simp [same, of_decide_eq_true inside]
  · simp [same, of_decide_eq_false outside]

end ModuleTree.Sound

end LetModules
