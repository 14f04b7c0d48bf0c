import LetModules.Proofs.Loading.Reads
import LetModules.Proofs.Scope.Region
import LetModules.Proofs.Text.Segments

/-!
Addresses lead back to the modules that they are written for. The display path of a production
module, and its path beside the name of its package, are addresses of this module and of no other
one; the path of a test module leads to the test, unless a production module of the package has the
same path and is found in its place (`addressed_of_load`).

An address is read leniently, so this holds of names that can be written as they are
(`Text.Plain`); and it is exact because package, root and path name one module at most.
-/

namespace LetModules

namespace Workspace

/-- The modules of a workspace are found at the addresses that are written for them, as far as their
names can be written. -/
structure Addressed (w : Workspace) : Prop where
  displayed : ∀ m ∈ w.resolution.tree.modules, m.isProduction = true →
    Text.Plain (w.resolution.tree.packageName m.package) → (∀ name ∈ m.path, Text.Plain name) →
      w.findModule (w.resolution.tree.displayPath m) none = .ok m
  production : ∀ m ∈ w.resolution.tree.modules, m.isProduction = true →
    (∀ name ∈ m.path, Text.Plain name) →
      w.findModule m.pathText (some (w.resolution.tree.packageName m.package)) = .ok m
  /-- A test is found where no production module of its package has its path. -/
  alone : ∀ t ∈ w.resolution.tree.modules, t.isTest = true → (∀ name ∈ t.path, Text.Plain name) →
    (∀ m ∈ w.resolution.tree.modules, m.isProduction = true → m.package = t.package →
      m.path ≠ t.path) →
        w.findModule t.pathText (some (w.resolution.tree.packageName t.package)) = .ok t
  /-- A production module of its package with its path is found in its place. -/
  covered : ∀ t ∈ w.resolution.tree.modules, t.isTest = true →
    (∀ name ∈ t.path, Text.Plain name) →
      ∀ m ∈ w.resolution.tree.modules, m.isProduction = true → m.package = t.package →
        m.path = t.path →
          w.findModule t.pathText (some (w.resolution.tree.packageName t.package)) = .ok m

/-- The path of a module is cut again where it was joined. -/
theorem splitAddress_pathText {m : Module} (plain : ∀ name ∈ m.path, Text.Plain name)
    (package : String) : splitAddress m.pathText (some package) = .ok (package, m.path) := by
  rw [splitAddress, Module.pathText, Text.trimmedSegments_joined plain]

/-- The first part of a display path is the name of the package. -/
theorem splitAddress_displayPath {tree : ModuleTree} {m : Module} (production : m.root = .source)
    (nonempty : m.path ≠ []) (named : Text.Plain (tree.packageName m.package))
    (plain : ∀ name ∈ m.path, Text.Plain name) :
    splitAddress (tree.displayPath m) none = .ok (tree.packageName m.package, m.path) := by
  obtain ⟨first, rest, path⟩ := List.exists_cons_of_ne_nil nonempty
  have written : tree.displayPath m = Text.joined (tree.packageName m.package :: m.path) := by
    rw [ModuleTree.displayPath, production, Module.pathText, path, Text.joined, Text.joined,
      String.intercalate_cons_cons]
  have cut : Text.trimmedSegments (tree.displayPath m) = tree.packageName m.package :: m.path := by
    rw [written, Text.trimmedSegments_joined (List.forall_mem_cons.mpr ⟨named, plain⟩)]
  simp only [splitAddress, cut, path]

end Workspace

namespace ModuleTree.Sound

variable {tree : ModuleTree} (sound : tree.Sound)

include sound

/-- The name of the package that a module belongs to leads to the package. -/
theorem packageNamed?_packageName {m : Module} (mem : m ∈ tree.modules) :
    ∃ p, tree.packageNamed? (tree.packageName m.package) = some p ∧ p.id = m.package := by
  obtain ⟨p, hp, package, -⟩ := sound.exists_package mem
  rw [package, sound.packageName_of_mem hp]
  exact ⟨p, sound.packageNamed?_eq_some_iff.mpr ⟨hp, rfl⟩, rfl⟩

/-- A path names one test module of a package at most. -/
theorem find?_isTest_eq_some {t : Module} (mem : t ∈ tree.modules) (test : t.root = .test) :
    tree.modules.find? (fun m => m.package = t.package && m.isTest && m.path = t.path) =
      some t := by
  have some_found : (tree.modules.find? fun m =>
      m.package = t.package && m.isTest && m.path = t.path).isSome := by
    rw [List.find?_isSome]
    exact ⟨t, mem, by simp [Module.isTest, test]⟩
  obtain ⟨n, found⟩ := Option.isSome_iff_exists.mp some_found
  have held := List.find?_some found
  simp only [Module.isTest, Bool.and_eq_true, decide_eq_true_eq] at held
  obtain ⟨⟨package, root⟩, path⟩ := held
  rw [found, sound.module_eq_of_path_eq (List.mem_of_find?_eq_some found) mem package
    (root.trans test.symm) path]

end ModuleTree.Sound

namespace Workspace

variable {w : Workspace}

/-- The module at an address is looked up by the package and the path that it is cut into. -/
theorem findModule_eq_ok {address : String} {package : Option String} {name : String}
    {path : List String} {p : Package} {m : Module}
    (cut : splitAddress address package = .ok (name, path))
    (named : w.resolution.tree.packageNamed? name = some p)
    (found : (w.resolution.tree.production? p.id path).or (w.resolution.tree.modules.find? fun m =>
      m.package = p.id && m.isTest && m.path = path) = some m) :
    w.findModule address package = .ok m := by
  rw [findModule, cut]
  dsimp only [bind, Except.bind]
  rw [named]
  dsimp only
  rw [found]

/-- An address of the path of a production module in its package leads to the module. -/
theorem findModule_of_production (sound : w.resolution.tree.Sound) {address : String}
    {package : Option String} {m : Module} (mem : m ∈ w.resolution.tree.modules)
    (production : m.root = .source)
    (cut : splitAddress address package =
      .ok (w.resolution.tree.packageName m.package, m.path)) :
    w.findModule address package = .ok m := by
  obtain ⟨p, named, id⟩ := sound.packageNamed?_packageName mem
  have found := sound.production?_eq_some_iff.mpr ⟨mem, production, id.symm, rfl⟩
  exact findModule_eq_ok cut named (by rw [found, Option.some_or])

/-- An address of the path of a test module leads to the module if nothing else has the path. -/
theorem findModule_of_test (sound : w.resolution.tree.Sound) {address : String}
    {package : Option String} {t : Module} (mem : t ∈ w.resolution.tree.modules)
    (test : t.root = .test)
    (cut : splitAddress address package = .ok (w.resolution.tree.packageName t.package, t.path))
    (alone : ∀ m ∈ w.resolution.tree.modules, m.isProduction = true → m.package = t.package →
      m.path ≠ t.path) : w.findModule address package = .ok t := by
  obtain ⟨p, named, id⟩ := sound.packageNamed?_packageName mem
  have absent : w.resolution.tree.production? t.package t.path = none := by
    rw [Option.eq_none_iff_forall_ne_some]
    intro m found
    obtain ⟨there, production, package, path⟩ := sound.production?_eq_some_iff.mp found
    exact alone m there (decide_eq_true production) package path
  refine findModule_eq_ok cut named ?_
  rw [id, absent, Option.none_or]
  exact sound.find?_isTest_eq_some mem test

/-- In a loaded workspace, the addresses that are written for modules lead back to them. -/
theorem addressed_of_load {disk : Disk} {settings : Settings} {directories : List String}
    (loaded : Workspace.load disk settings directories = .ok w) : w.Addressed := by
  obtain ⟨⟨packages, sources⟩, -, rfl⟩ := exists_of_map_eq_ok loaded
  have sound : (ofPackages settings sources packages).resolution.tree.Sound :=
    Growth.sound_ofSources (packages.map LoadedPackage.toSource)
  constructor
  case displayed =>
    intro m mem production named plain
    have source := of_decide_eq_true production
    exact findModule_of_production sound mem source
      (splitAddress_displayPath source (sound.path_ne_nil mem) named plain)
  case production =>
    intro m mem production plain
    exact findModule_of_production sound mem (of_decide_eq_true production)
      (splitAddress_pathText plain _)
  case alone =>
    intro t mem test plain alone
    exact findModule_of_test sound mem (of_decide_eq_true test) (splitAddress_pathText plain _)
      alone
  case covered =>
    intro t _ _ plain m mem production package path
    have cut := splitAddress_pathText plain
      ((ofPackages settings sources packages).resolution.tree.packageName t.package)
    rw [← package, ← path] at cut
    rw [← package]
    exact findModule_of_production sound mem (of_decide_eq_true production) cut

/-- Two packages; in one of them a production module and a test have the same path. -/
def addressedDisk : Disk :=
  Entry.find? (Entry.ofFiles [("app/src/Text/Text.let", some ""), ("app/test/Text.let", some ""),
    ("app/test/TextTest.let", some ""), ("acme.core/src/Text.let", some "")])

theorem addressed_sample : ∃ w,
    Workspace.load addressedDisk .standard ["app", "acme.core"] = .ok w ∧ w.Addressed ∧
      w.resolution.tree.modules.map w.resolution.tree.displayPath =
        ["app::Text", "app[test]::Text", "app[test]::TextTest", "acme.core::Text"] := by
  have listed : ((Workspace.load addressedDisk .standard ["app", "acme.core"]).toOption.map fun w =>
      w.resolution.tree.modules.map w.resolution.tree.displayPath) =
        some ["app::Text", "app[test]::Text", "app[test]::TextTest", "acme.core::Text"] := by
    decide +kernel
  cases loaded : Workspace.load addressedDisk .standard ["app", "acme.core"] with
  | error failure =>
    rw [loaded] at listed
    cases listed
  | ok w =>
    rw [loaded] at listed
    exact ⟨w, rfl, addressed_of_load loaded, Option.some.inj listed⟩

end Workspace

end LetModules
