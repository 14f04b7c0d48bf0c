import LetModules.Files.Reading
import LetModules.Manifest

/-!
Loading packages: the manifest is read, then the source root, which must be there, and the test root
if there is one. Files are registered in the order in which they are read, over all packages.
-/

namespace LetModules

/-- A package as it was found in its directory. -/
structure LoadedPackage where
  manifest : Manifest
  /-- The path of the package directory as it was given. -/
  root : String
  source : DirectorySource
  test : Option DirectorySource
  /-- What the outlines of its files complain about. -/
  diagnostics : List Diagnostic

mutual

/-- How many source files lie in a directory and below. -/
def DirectorySource.fileCount : DirectorySource → Nat
  | ⟨_, files, directories⟩ => files.length + DirectorySource.fileCounts directories

/-- How many source files lie in directories and below. -/
def DirectorySource.fileCounts : List DirectorySource → Nat
  | [] => 0
  | directory :: rest => DirectorySource.fileCount directory + DirectorySource.fileCounts rest

end

namespace LoadedPackage

/-- What module resolution is told about the package. -/
def toSource (package : LoadedPackage) : PackageSource :=
  ⟨package.manifest.name, package.manifest.dependencies, package.source, package.test⟩

/-- How many source files the package has. -/
def fileCount (package : LoadedPackage) : Nat :=
  package.source.fileCount + (package.test.map DirectorySource.fileCount).getD 0

end LoadedPackage

namespace Disk

/-- The manifest of a package directory. What is no regular file is no manifest. -/
def manifest (disk : Disk) (directory : String) : Except LoadProblem Manifest :=
  let path := Path.join directory Manifest.fileName
  match disk path with
  | some (.file _ none) => .error (.notText path)
  | some (.file _ (some text)) =>
    match Manifest.read? text with
    | some manifest => .ok manifest
    | none => .error (.badManifest path)
  | _ => .ok (.implicit directory)

/-- Reads the root at `path`. -/
def readRoot (extension path : String) (entries : List Entry) (sources : Sources) :
    Except LoadProblem (DirectorySource × Reading) := do
  let reading ← Entry.readAll extension path (Entry.sortedAll entries) sources
  return (⟨(Path.fileName? path).getD "", reading.files, reading.directories⟩, reading)

/-- Loads the package in a directory and registers its files after those in `sources`. The settings
of the manifest stand in place of the given ones. -/
def loadPackage (disk : Disk) (settings : Settings) (directory : String) (sources : Sources) :
    Except LoadProblem (LoadedPackage × Sources) := do
  let manifest ← disk.manifest directory
  let layout := manifest.settings.getD settings
  let sourcePath := Path.join directory layout.sourceDir
  let testPath := Path.join directory layout.testDir
  match disk.folder? sourcePath with
  | none => throw (.noSourceDirectory sourcePath)
  | some entries =>
    let (source, first) ← readRoot layout.extension sourcePath entries sources
    match disk.folder? testPath with
    | none => return (⟨manifest, directory, source, none, first.diagnostics⟩, first.sources)
    | some entries =>
      let (test, second) ← readRoot layout.extension testPath entries first.sources
      return (⟨manifest, directory, source, some test, first.diagnostics ++ second.diagnostics⟩,
        second.sources)

end Disk

/-- Loading came to an end before all packages were read. -/
structure LoadFailure where
  /-- The packages before the failing one. -/
  loaded : List LoadedPackage
  directory : String
  problem : LoadProblem

namespace LoadFailure

/-- The failure in words, and then what lies behind it, step by step. -/
def causes (failure : LoadFailure) : List String :=
  ["Failed to load package " ++ failure.directory, failure.problem.text]
    ++ failure.problem.reason?.toList

end LoadFailure

namespace Disk

/-- Loads the packages in further directories. The first failure ends it. -/
def loadMore (disk : Disk) (settings : Settings) (loaded : List LoadedPackage) (sources : Sources) :
    List String → Except LoadFailure (List LoadedPackage × Sources)
  | [] => .ok (loaded, sources)
  | directory :: directories =>
    match disk.loadPackage settings directory sources with
    | .error problem => .error ⟨loaded, directory, problem⟩
    | .ok (package, sources) =>
      disk.loadMore settings (loaded ++ [package]) sources directories

/-- Loads packages in the given order. -/
def loadPackages (disk : Disk) (settings : Settings) (directories : List String) :
    Except LoadFailure (List LoadedPackage × Sources) :=
  disk.loadMore settings [] [] directories

end Disk

end LetModules
