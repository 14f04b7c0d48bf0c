import LetModules.Files.Entry
import LetModules.Outline.Reader

/-!
Reading a root directory: its source files are registered and their outlines read, folder by folder
in order of names. Hidden files and folders are passed over, and so are files with another
extension. A folder appears only if a source file lies somewhere below it.
-/

namespace LetModules

/-- Why a package cannot be loaded. -/
inductive LoadProblem where
  /-- The bytes of a file are not UTF-8. -/
  | notText (path : String)
  | badManifest (path : String)
  | noSourceDirectory (path : String)
  deriving DecidableEq, Repr

namespace LoadProblem

/-- The file or folder that the problem is about. -/
def path : LoadProblem → String
  | .notText path | .badManifest path | .noSourceDirectory path => path

/-- What lies behind the problem. -/
def reason? : LoadProblem → Option String
  | .notText _ => some "stream did not contain valid UTF-8"
  | _ => none

/-- The problem in words. -/
def text (problem : LoadProblem) : String :=
  match problem with
  | .notText path => "cannot read " ++ path ++ ": " ++ problem.reason?.getD ""
  | .badManifest path => "invalid manifest " ++ path
  | .noSourceDirectory path => "package source directory " ++ path ++ " does not exist"

end LoadProblem

/-- What was read from some entries of a folder. -/
structure Reading where
  /-- All files registered so far, those from before included. -/
  sources : Sources
  files : List ModuleSource
  directories : List DirectorySource
  diagnostics : List Diagnostic

namespace Reading

/-- Nothing has been read. -/
def nothing (sources : Sources) : Reading := ⟨sources, [], [], []⟩

/-- A source file has been read. -/
def ofFile (path module text : String) (sources : Sources) : Reading :=
  let outline := Outline.read text
  let id := sources.nextId
  ⟨sources ++ [⟨path, text⟩], [outline.toModule module id], [], outline.diagnostics id⟩

/-- What was read in a folder, as one directory of that name. -/
def inFolder (name : String) (inner : Reading) : Reading :=
  if inner.files.isEmpty && inner.directories.isEmpty then inner
  else ⟨inner.sources, [], [⟨name, inner.files, inner.directories⟩], inner.diagnostics⟩

/-- What was read first, and what was read after it. -/
def followedBy (first later : Reading) : Reading :=
  ⟨later.sources, first.files ++ later.files, first.directories ++ later.directories,
    first.diagnostics ++ later.diagnostics⟩

end Reading

namespace Entry

/-- The name of the module in a file of this name, if it is a source file. -/
def moduleName? (extension name : String) : Option String :=
  if Path.extension? name = some extension then some (Path.stem name) else none

mutual

/-- Reads an entry of the folder at `path`. -/
def read (extension path : String) : Entry → Sources → Except LoadProblem Reading
  | .file name text, sources =>
    if isHidden (.file name text) then .ok (.nothing sources)
    else
      match moduleName? extension name, text with
      | none, _ => .ok (.nothing sources)
      | some _, none => .error (.notText (Path.join path name))
      | some module, some text => .ok (.ofFile (Path.join path name) module text sources)
  | .folder name entries, sources =>
    if isHidden (.folder name entries) then .ok (.nothing sources)
    else (readAll extension (Path.join path name) entries sources).map (Reading.inFolder name)

/-- Reads entries of the folder at `path`, one after the other. -/
def readAll (extension path : String) : List Entry → Sources → Except LoadProblem Reading
  | [], sources => .ok (.nothing sources)
  | entry :: entries, sources =>
    match read extension path entry sources with
    | .error problem => .error problem
    | .ok first => (readAll extension path entries first.sources).map first.followedBy

end

end Entry

end LetModules
