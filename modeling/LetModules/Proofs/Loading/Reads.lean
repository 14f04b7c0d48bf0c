import LetModules.Workspace

/-!
What reading a folder does, as a relation with one rule for each kind of entry (`Reads`): an entry
that is passed over, a source file and a folder. Every folder that is read is read so
(`reads_of_readAll`). Whatever is loaded in this way registers further files in the order in which
it reads them, and collects what their outlines complain about (`syntaxDiagnostics_of_load`).
-/

namespace LetModules

theorem exists_of_map_eq_ok {ε α β : Type} {f : α → β} {x : Except ε α} {b : β}
    (h : x.map f = .ok b) : ∃ a, x = .ok a ∧ f a = b := by
  cases x with
  | error problem => cases h
  | ok a => exact ⟨a, rfl, Except.ok.inj h⟩

theorem exists_of_bind_eq_ok {ε α β : Type} {f : α → Except ε β} {x : Except ε α} {b : β}
    (h : x >>= f = .ok b) : ∃ a, x = .ok a ∧ f a = .ok b := by
  cases x with
  | error problem => cases h
  | ok a => exact ⟨a, rfl, h⟩

namespace Reading

@[simp] theorem sources_followedBy (first later : Reading) :
    (first.followedBy later).sources = later.sources := rfl

@[simp] theorem files_followedBy (first later : Reading) :
    (first.followedBy later).files = first.files ++ later.files := rfl

@[simp] theorem directories_followedBy (first later : Reading) :
    (first.followedBy later).directories = first.directories ++ later.directories := rfl

@[simp] theorem diagnostics_followedBy (first later : Reading) :
    (first.followedBy later).diagnostics = first.diagnostics ++ later.diagnostics := rfl

@[simp] theorem files_ofFile (path module text : String) (sources : Sources) :
    (ofFile path module text sources).files =
      [(Outline.read text).toModule module sources.nextId] := rfl

@[simp] theorem directories_ofFile (path module text : String) (sources : Sources) :
    (ofFile path module text sources).directories = [] := rfl

@[simp] theorem diagnostics_ofFile (path module text : String) (sources : Sources) :
    (ofFile path module text sources).diagnostics =
      (Outline.read text).diagnostics sources.nextId := rfl

@[simp] theorem sources_inFolder (name : String) (inner : Reading) :
    (inner.inFolder name).sources = inner.sources := by
  rw [inFolder]
  split <;> rfl

@[simp] theorem diagnostics_inFolder (name : String) (inner : Reading) :
    (inner.inFolder name).diagnostics = inner.diagnostics := by
  rw [inFolder]
  split <;> rfl

end Reading

namespace Entry

/-- An entry that is passed over: it is hidden, or a file that is no source file. -/
inductive IsSkipped (extension : String) : Entry → Prop
  | hidden {entry : Entry} (hidden : entry.isHidden = true) : IsSkipped extension entry
  | other {name : String} {text : Option String} (noModule : moduleName? extension name = none) :
      IsSkipped extension (.file name text)

/-- The entries of the folder at a path are read after some files have been registered. -/
inductive Reads (extension : String) : String → List Entry → Sources → Reading → Prop
  | nil {path : String} {sources : Sources} : Reads extension path [] sources (.nothing sources)
  | skip {path : String} {entry : Entry} {entries : List Entry} {sources : Sources}
      {reading : Reading} (skipped : entry.IsSkipped extension)
      (rest : Reads extension path entries sources reading) :
      Reads extension path (entry :: entries) sources reading
  | file {path name text module : String} {entries : List Entry} {sources : Sources}
      {reading : Reading} (shown : isHidden (.file name (some text)) = false)
      (named : moduleName? extension name = some module)
      (rest : Reads extension path entries (sources ++ [⟨Path.join path name, text⟩]) reading) :
      Reads extension path (.file name (some text) :: entries) sources
        ((Reading.ofFile (Path.join path name) module text sources).followedBy reading)
  | folder {path name : String} {inside entries : List Entry} {sources : Sources}
      {inner reading : Reading} (shown : isHidden (.folder name inside) = false)
      (within : Reads extension (Path.join path name) inside sources inner)
      (rest : Reads extension path entries inner.sources reading) :
      Reads extension path (.folder name inside :: entries) sources
        ((inner.inFolder name).followedBy reading)

variable {extension : String}

mutual

/-- Reading an entry is a step of reading a folder. -/
theorem reads_cons_of_read {path : String} {sources : Sources} {first reading : Reading}
    {entries : List Entry} : ∀ entry : Entry, read extension path entry sources = .ok first →
      Reads extension path entries first.sources reading →
        Reads extension path (entry :: entries) sources (first.followedBy reading)
  | .file name text, done, rest => by
    rw [read.eq_def] at done
    dsimp only at done
    split at done
    · rename_i hidden
      obtain rfl := Except.ok.inj done
      exact .skip (.hidden hidden) rest
    · rename_i shown
      cases named : moduleName? extension name with
      | none =>
        rw [named] at done
        obtain rfl := Except.ok.inj done
        exact .skip (.other named) rest
      | some module =>
        rw [named] at done
        cases text with
        | none => cases done
        | some text =>
          obtain rfl := Except.ok.inj done
          exact .file (by simpa using shown) named rest
  | .folder name inside, done, rest => by
    rw [read] at done
    split at done
    · rename_i hidden
      obtain rfl := Except.ok.inj done
      exact .skip (.hidden hidden) rest
    · rename_i shown
      obtain ⟨inner, within, rfl⟩ := exists_of_map_eq_ok done
      rw [Reading.sources_inFolder] at rest
      exact .folder (by simpa using shown) (reads_of_readAll inside within) rest

/-- Reading the entries of a folder goes by the rules. -/
theorem reads_of_readAll {path : String} {sources : Sources} {reading : Reading} :
    ∀ entries : List Entry, readAll extension path entries sources = .ok reading →
      Reads extension path entries sources reading
  | [], done => by
    rw [readAll] at done
    obtain rfl := Except.ok.inj done
    exact .nil
  | entry :: entries, done => by
    rw [readAll] at done
    split at done
    · cases done
    · rename_i first begun
      obtain ⟨later, ended, rfl⟩ := exists_of_map_eq_ok done
      exact reads_cons_of_read entry begun (reads_of_readAll entries ended)

end

end Entry

namespace Sources

/-- What the outlines of files complain about, the first of which has the id `start`. -/
def complaints (start : Nat) (files : Sources) : List Diagnostic :=
  (files.zipIdx start).flatMap fun (file, i) => (Outline.read file.text).diagnostics ⟨i⟩

theorem complaints_append (start : Nat) (files more : Sources) :
    complaints start (files ++ more) =
      complaints start files ++ complaints (start + files.length) more := by
  rw [complaints, List.zipIdx_append, List.flatMap_append]
  rfl

/-- Further files were registered, and what their outlines complain about was collected. -/
def Registers (before after : Sources) (diagnostics : List Diagnostic) : Prop :=
  ∃ files, after = before ++ files ∧ diagnostics = complaints before.length files

namespace Registers

theorem refl (sources : Sources) : sources.Registers sources [] :=
  ⟨[], (List.append_nil _).symm, rfl⟩

theorem trans {before between after : Sources} {diagnostics later : List Diagnostic}
    (first : before.Registers between diagnostics) (second : between.Registers after later) :
    before.Registers after (diagnostics ++ later) := by
  obtain ⟨files, rfl, rfl⟩ := first
  obtain ⟨more, rfl, rfl⟩ := second
  refine ⟨files ++ more, List.append_assoc .., ?_⟩
  rw [complaints_append, List.length_append]

theorem file (sources : Sources) (file : SourceFile) : sources.Registers (sources ++ [file])
    ((Outline.read file.text).diagnostics sources.nextId) :=
  ⟨[file], rfl, by simp [complaints, nextId]⟩

end Registers

end Sources

/-- Reading a folder registers the files that it reads. -/
theorem Entry.Reads.registers {extension path : String} {entries : List Entry} {sources : Sources}
    {reading : Reading} (reads : Entry.Reads extension path entries sources reading) :
    sources.Registers reading.sources reading.diagnostics := by
  induction reads with
  | nil => exact .refl _
  | skip _ _ ih => exact ih
  | @file path name text module entries sources reading _ _ _ ih =>
    rw [Reading.sources_followedBy, Reading.diagnostics_followedBy, Reading.diagnostics_ofFile]
    exact (Sources.Registers.file sources ⟨Path.join path name, text⟩).trans ih
  | folder _ _ _ within rest =>
    rw [Reading.sources_followedBy, Reading.diagnostics_followedBy, Reading.diagnostics_inFolder]
    exact within.trans rest

namespace Disk

variable {disk : Disk} {settings : Settings}

theorem exists_reads_of_readRoot {extension path : String} {entries : List Entry}
    {sources : Sources} {found : DirectorySource × Reading}
    (done : readRoot extension path entries sources = .ok found) :
    Entry.Reads extension path (Entry.sortedAll entries) sources found.2 ∧
      found.1.files = found.2.files ∧ found.1.directories = found.2.directories := by
  obtain ⟨reading, read, rest⟩ := exists_of_bind_eq_ok done
  obtain rfl := Except.ok.inj rest
  exact ⟨Entry.reads_of_readAll _ read, rfl, rfl⟩

/-- Loading a package registers the files of its roots. -/
theorem registers_of_loadPackage {directory : String} {before after : Sources}
    {package : LoadedPackage}
    (done : disk.loadPackage settings directory before = .ok (package, after)) :
    before.Registers after package.diagnostics := by
  obtain ⟨manifest, -, done⟩ := exists_of_bind_eq_ok done
  dsimp only at done
  split at done
  · cases done
  · obtain ⟨⟨source, first⟩, read, done⟩ := exists_of_bind_eq_ok done
    have reads := (exists_reads_of_readRoot read).1.registers
    dsimp only at done
    split at done
    · cases done
      exact reads
    · obtain ⟨⟨test, second⟩, read, done⟩ := exists_of_bind_eq_ok done
      cases done
      exact reads.trans (exists_reads_of_readRoot read).1.registers

/-- Loading further packages registers their files. -/
theorem registers_of_loadMore {after : Sources} {packages : List LoadedPackage} :
    ∀ (directories : List String) (loaded : List LoadedPackage) (before : Sources),
      disk.loadMore settings loaded before directories = .ok (packages, after) →
        ∃ more, packages = loaded ++ more ∧ before.Registers after (more.flatMap (·.diagnostics))
  | [], loaded, before, done => by
    rw [loadMore] at done
    cases done
    exact ⟨[], (List.append_nil _).symm, .refl _⟩
  | directory :: directories, loaded, before, done => by
    rw [loadMore] at done
    split at done
    · cases done
    · rename_i package between one
      obtain ⟨more, rfl, later⟩ := registers_of_loadMore directories _ _ done
      refine ⟨package :: more, by rw [List.append_assoc, List.singleton_append], ?_⟩
      rw [List.flatMap_cons]
      exact (registers_of_loadPackage one).trans later

end Disk

/-- A loaded workspace collects what the outlines of its files complain about, in order. -/
theorem Workspace.syntaxDiagnostics_of_load {disk : Disk} {settings : Settings}
    {directories : List String} {workspace : Workspace}
    (loaded : Workspace.load disk settings directories = .ok workspace) :
    workspace.syntaxDiagnostics = Sources.complaints 0 workspace.sources := by
  obtain ⟨⟨packages, sources⟩, done, rfl⟩ := exists_of_map_eq_ok loaded
  obtain ⟨more, rfl, files, rfl, collected⟩ := Disk.registers_of_loadMore directories [] [] done
  exact collected

end LetModules
