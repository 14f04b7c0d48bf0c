import LetModules.Proofs.Loading.Reads
import LetModules.Proofs.Pairing.Matching

/-!
The suffix of test names that a manifest sets comes to nothing. From the settings of a manifest,
loading a package takes where its roots are and what extension its source files have; the tests of
all packages are paired by the suffix of the run (`mem_pairings_of_load`). Other suffixes in the
manifests change nothing but the manifests (`load_of_resuffixed`), and tests that are named by the
suffix of their own package remain unpaired (`own_suffix_unheeded`).
-/

namespace LetModules

/-! ### Other suffixes in the manifests -/

def Settings.withSuffix (settings : Settings) (suffix : String) : Settings :=
  { settings with testSuffix := suffix }

/-- The manifest with another suffix in its settings, if it has any. -/
def Manifest.withSuffix (manifest : Manifest) (suffix : String) : Manifest :=
  { manifest with settings := manifest.settings.map (·.withSuffix suffix) }

/-- The package with the suffix for its directory in the manifest. -/
def LoadedPackage.resuffixed (suffix : String → String) (package : LoadedPackage) : LoadedPackage :=
  { package with manifest := package.manifest.withSuffix (suffix package.root) }

def LoadFailure.resuffixed (suffix : String → String) (failure : LoadFailure) : LoadFailure :=
  { failure with loaded := failure.loaded.map (.resuffixed suffix) }

/-- The workspace with other suffixes in the manifests of its packages. What was resolved stays as
it is. -/
def Workspace.resuffixed (suffix : String → String) (workspace : Workspace) : Workspace :=
  { workspace with packages := workspace.packages.map (.resuffixed suffix) }

/-- The other disk has the same package in a directory, but for the suffix in its manifest. -/
structure Disk.Resuffixed (disk other : Disk) (settings : Settings) (suffix : String → String)
    (directory : String) : Prop where
  manifest : other.manifest directory =
    (disk.manifest directory).map (·.withSuffix (suffix directory))
  source : ∀ manifest, disk.manifest directory = .ok manifest →
    let path := Path.join directory (manifest.settings.getD settings).sourceDir
    other.folder? path = disk.folder? path
  test : ∀ manifest, disk.manifest directory = .ok manifest →
    let path := Path.join directory (manifest.settings.getD settings).testDir
    other.folder? path = disk.folder? path

/-- The layout of a package is that of before, with some suffix. -/
theorem Manifest.exists_layout_withSuffix (manifest : Manifest) (settings : Settings)
    (suffix : String) : ∃ other, (manifest.withSuffix suffix).settings.getD settings =
      (manifest.settings.getD settings).withSuffix other := by
  cases found : manifest.settings with
  | none => exact ⟨settings.testSuffix, by rw [withSuffix, found]; rfl⟩
  | some own => exact ⟨suffix, by rw [withSuffix, found]; rfl⟩

namespace Disk

variable {disk other : Disk} {settings : Settings} {suffix : String → String}

/-- A package is loaded as before, with the other suffix in its manifest. -/
theorem loadPackage_of_resuffixed {directory : String}
    (same : disk.Resuffixed other settings suffix directory) (sources : Sources) :
    other.loadPackage settings directory sources =
      (disk.loadPackage settings directory sources).map
        fun (package, after) => (package.resuffixed suffix, after) := by
  rw [loadPackage, loadPackage, same.manifest]
  cases read : disk.manifest directory with
  | error problem => rfl
  | ok manifest =>
    obtain ⟨named, layout⟩ := manifest.exists_layout_withSuffix settings (suffix directory)
    have source := same.source manifest read
    have test := same.test manifest read
    dsimp only [Except.map, bind, Except.bind]
    rw [layout]
    generalize manifest.settings.getD settings = layout at source test ⊢
    -- from here on, nothing reads the suffix of the layout
    dsimp only [Settings.withSuffix] at source test ⊢
    rw [source, test]
    cases disk.folder? (Path.join directory layout.sourceDir) with
    | none => rfl
    | some entries =>
      dsimp only
      cases readRoot layout.extension (Path.join directory layout.sourceDir) entries sources with
      | error problem => rfl
      | ok first =>
        dsimp only
        cases disk.folder? (Path.join directory layout.testDir) with
        | none => rfl
        | some entries =>
          dsimp only
          cases readRoot layout.extension (Path.join directory layout.testDir) entries
            first.2.sources with
          | error problem => rfl
          | ok second => rfl

/-- Further packages are loaded as before, with the other suffixes in their manifests. -/
theorem loadMore_of_resuffixed {directories : List String}
    (same : ∀ directory ∈ directories, disk.Resuffixed other settings suffix directory)
    (loaded : List LoadedPackage) (sources : Sources) :
    other.loadMore settings (loaded.map (.resuffixed suffix)) sources directories =
      ((disk.loadMore settings loaded sources directories).map
        fun (packages, after) => (packages.map (.resuffixed suffix), after)).mapError
          (.resuffixed suffix) := by
  induction directories generalizing loaded sources with
  | nil => rfl
  | cons directory directories ih =>
    obtain ⟨here, later⟩ := List.forall_mem_cons.mp same
    rw [loadMore, loadMore, loadPackage_of_resuffixed here]
    cases disk.loadPackage settings directory sources with
    | error problem => rfl
    | ok found =>
      obtain ⟨package, between⟩ := found
      have more := ih later (loaded ++ [package]) between
      rw [List.map_append, List.map_singleton] at more
      exact more

end Disk

namespace Workspace

variable {disk other : Disk} {settings : Settings} {suffix : String → String}
  {directories : List String} {w : Workspace}

/-- With other suffixes in the manifests, the same files are registered and resolving them finds out
the same; or loading fails in the same way. -/
theorem load_of_resuffixed
    (same : ∀ directory ∈ directories, disk.Resuffixed other settings suffix directory) :
    load other settings directories =
      ((load disk settings directories).map (resuffixed suffix)).mapError
        (.resuffixed suffix) := by
  have loaded := Disk.loadMore_of_resuffixed same [] []
  rw [List.map_nil] at loaded
  rw [load, load, Disk.loadPackages, Disk.loadPackages, loaded]
  cases disk.loadMore settings [] [] directories with
  | error failure => rfl
  | ok found =>
    obtain ⟨packages, sources⟩ := found
    dsimp only [Except.map, Except.mapError]
    rw [ofPackages, List.map_map]
    rfl

/-! ### The suffix of the run -/

/-- In any package, a test is paired with what it claims by the suffix of the run, if every other
claimant has a greater path. -/
theorem mem_pairings_of_load (loaded : load disk settings directories = .ok w)
    {test production : Module} :
    ⟨test, production⟩ ∈ w.resolution.pairings ↔
      Pairing.Claimant w.resolution.tree settings production test ∧
        ∀ other, Pairing.Claimant w.resolution.tree settings production other → other ≠ test →
          test.path < other.path := by
  obtain ⟨⟨packages, sources⟩, -, rfl⟩ := exists_of_map_eq_ok loaded
  exact Pairing.mem_pairs_iff_least (Growth.sound_ofSources (packages.map LoadedPackage.toSource))

/-- A test that is not named by the suffix of the run is not paired, whatever its package says. -/
theorem unpaired_of_load (loaded : load disk settings directories = .ok w) {test : Module}
    (other : ∀ name, name ≠ "" → test.name ≠ name ++ settings.testSuffix) (production : Module) :
    ⟨test, production⟩ ∉ w.resolution.pairings := by
  intro paired
  obtain ⟨claimant, -⟩ := (mem_pairings_of_load loaded).mp paired
  obtain ⟨name, nonempty, named, -⟩ := claimant.named
  exact other name nonempty named

/-- A package with a suffix of its own, and a test that is named by it. -/
def suffixedDisk : Disk :=
  Entry.find? (Entry.ofFiles
    [("app/let.json",
        some "\x7b\"name\": \"app\", \"resolver\": \x7b\"test_suffix\": \"Spec\"\x7d\x7d"),
      ("app/src/A.let", some "fun a"), ("app/test/ASpec.let", some "export fun runs")])

/-- The names of paired modules, by the test. -/
def pairedNames (tree : ModuleTree) (pairings : Pairings) : List (String × String) :=
  pairings.map fun pair => (tree.displayPath pair.test, tree.displayPath pair.production)

/-- The suffix in a manifest is read, and then tests are not paired by it. -/
theorem own_suffix_unheeded :
    ((load suffixedDisk .standard ["app"]).toOption.map fun w =>
      (w.packages.map fun package => package.manifest.settings.map (·.testSuffix),
        pairedNames w.resolution.tree w.resolution.pairings,
        pairedNames w.resolution.tree
          (Pairing.ofTree w.resolution.tree (Settings.standard.withSuffix "Spec")).pairs)) =
      some ([some "Spec"], [], [("app[test]::ASpec", "app::A")]) := by
  decide +kernel

end Workspace

end LetModules
