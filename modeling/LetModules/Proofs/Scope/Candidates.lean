import LetModules.Proofs.Scope.Advice

/-!
What the modules listed for a bare name are good for. A bare name that no module or several have in
reach is answered with the paths of modules of that name, in reach or in the rest of the package.
They are listed wherever they lie. The path of one in a directory leads to a module of the name; the
path of one at the root of its package is the bare name once more, and following it fails as before
(`exists_listed`).
-/

namespace LetModules

/-- The name of a module ends its path. -/
theorem ModuleTree.Sound.getLast?_path {tree : ModuleTree} (sound : tree.Sound) {m : Module}
    (mem : m ∈ tree.modules) : m.path.getLast? = some m.name := by
  obtain ⟨d, hd, -, here, sits⟩ := sound.exists_directory mem
  rw [sits.path]
  split
  · rename_i folds
    obtain ⟨p, hp, r, -, hr, below⟩ := sound.exists_root hd
    rcases Directory.exists_parent below with rfl | ⟨parent, above, hc⟩
    · have orphan := ((sound.rooted p hp).rootOf hr).parent
      exact absurd folds (by simp [(sound.shaped d hd).unfolded orphan m here])
    · have shaped := sound.shaped parent (sound.mem_directories hp hr above)
      rw [shaped.path d hc, List.getLast?_concat, sits.named folds]
  · exact List.getLast?_concat

namespace Scope

/-- A module listed for a bare name that failed, and what comes of following its path. -/
structure Candidate (scope : Scope) (importer : Module) (name : String) (m : Module) : Prop where
  mem : m ∈ scope.tree.modules
  named : m.name = name
  package : m.package = importer.package
  root : m.root = importer.root ∨ m.root = .source
  read : (ModulePath.parse m.pathText).segments = m.path
  /-- The path of a module in a directory leads to a module that has it, and so has the name. -/
  leads : m.path ≠ [name] → ∃ n, scope.locate (.parse m.pathText) importer = .ok n ∧
    n ∈ scope.tree.modules ∧ n.package = importer.package ∧ n.name = name ∧ n.path = m.path
  /-- It is the listed one, unless a test gets a test module of the path. -/
  exact : m.path ≠ [name] → (scope.locate (.parse m.pathText) importer = .ok m ↔
    (m.root = .source → importer.root = .test →
      ∀ n, ¬ scope.tree.Owns importer.package .test m.path n))
  /-- The path of a module at the root of its package is the bare name. -/
  repeats : m.path = [name] →
    scope.locate (.parse m.pathText) importer = scope.locateShort name importer

variable {scope : Scope} {importer : Module}

/-- Some own module has the path of a module of the own package that is looked for. -/
theorem exists_own {m : Module} (mem : m ∈ scope.tree.modules)
    (package : m.package = importer.package) (root : m.root = importer.root ∨ m.root = .source) :
    ∃ n, scope.Own importer m.path n := by
  rcases root with root | root
  · exact ⟨m, mem, package, rfl, .inl root⟩
  · by_cases taken : ∃ n, importer.root = .test ∧ scope.tree.Owns importer.package .test m.path n
    · obtain ⟨n, asks, owns⟩ := taken
      exact ⟨n, own_iff.mpr (.inl ⟨asks, owns⟩)⟩
    · exact ⟨m, (own_path_iff mem package root).mpr fun asks n owns => taken ⟨n, asks, owns⟩⟩

/-- What comes of following the path of a module of the own package. -/
theorem Sound.listed (sound : scope.Sound) (mem : importer ∈ scope.tree.modules) {m : Module}
    (hm : m ∈ scope.tree.modules) (package : m.package = importer.package)
    (root : m.root = importer.root ∨ m.root = .source)
    (plain : ∀ segment ∈ m.path, Text.Plain segment) : scope.Candidate importer m.name m := by
  have read : ModulePath.parse m.pathText = ⟨m.path, none⟩ := ModulePath.parse_joined plain
  have ends : m.path.getLast? = some m.name := sound.tree.getLast?_path hm
  obtain ⟨first, own⟩ := exists_own hm package root
  -- a longer path is a full one, and that of an own module
  have found : ∀ {n}, m.path ≠ [m.name] →
      (scope.locate (.parse m.pathText) importer = .ok n ↔ scope.Own importer m.path n) := by
    intro n long
    obtain ⟨outer, next, rest, several⟩ : ∃ outer next rest,
        m.path = outer :: next :: rest := by
      match m.path, ends, long with
      | [only], ends, long => exact absurd (congrArg ([·]) (Option.some.inj ends)) long
      | outer :: next :: rest, _, _ => exact ⟨outer, next, rest, rfl⟩
    rw [read, several]
    rw [several] at own
    rw [sound.locate_several_eq_ok_iff mem (List.cons_ne_nil next rest)]
    exact or_iff_left fun ⟨none_own, _⟩ => none_own _ own
  constructor
  case mem => exact hm
  case named => rfl
  case package => exact package
  case root => exact root
  case read => rw [read]
  case leads =>
    intro long
    have named : some first.name = some m.name :=
      (sound.tree.getLast?_path own.mem).symm.trans (own.path ▸ ends)
    exact ⟨first, (found long).mpr own, own.mem, own.package, Option.some.inj named, own.path⟩
  case exact =>
    intro long
    rw [found long]
    constructor
    · exact fun own production => (own_path_iff hm package production).mp own
    · intro untested
      rcases root with root | root
      · exact ⟨hm, package, rfl, .inl root⟩
      · exact (own_path_iff hm package root).mpr (untested root)
  case repeats =>
    intro short
    rw [read, short]
    rfl

end Scope

end LetModules
