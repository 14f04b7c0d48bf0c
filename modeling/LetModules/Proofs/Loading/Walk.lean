import LetModules.Proofs.Loading.Files
import LetModules.Proofs.Loading.Filing
import LetModules.Proofs.Loading.Reads
import Mathlib.Data.List.Forall2

/-!
The walk through the folders below a root. What is read in a folder are its source files in the
order of the walk, and filing them one by one makes up what was read (`Reads.walked`). Names of
folders become names of directories and stems become names of modules, so where names differ in all
folders they differ in what was read, and no directory is empty (`Reads.tidy`).
-/

namespace LetModules

/-- What became of a source file: its outline, in the directory of its folder, as a module named by
its stem, with the id under which its text has been registered. -/
structure FoundFile.Became (root : String) (sources : Sources) (file : FoundFile)
    (located : List String × ModuleSource) : Prop where
  parents : located.1 = file.parents
  read : ∃ id text, file.text = some text ∧
    sources.file? id = some ⟨(file.parents ++ [file.name]).foldl Path.join root, text⟩ ∧
      located.2 = (Outline.read text).toModule (Path.stem file.name) id

theorem FoundFile.Became.mono {root : String} {before after : Sources} (grown : before <+: after)
    {file : FoundFile} {located : List String × ModuleSource}
    (became : file.Became root before located) : file.Became root after located := by
  obtain ⟨parents, id, text, here, registered, whole⟩ := became
  obtain ⟨more, rfl⟩ := grown
  have inside := (List.getElem?_eq_some_iff.mp registered).1
  exact ⟨parents, id, text, here, (List.getElem?_append_left inside).trans registered, whole⟩

namespace Reading

@[simp] theorem files_inFolder (name : String) (inner : Reading) :
    (inner.inFolder name).files = [] := by
  rw [inFolder]
  split
  · rename_i empty
    simp only [Bool.and_eq_true, List.isEmpty_iff] at empty
    exact empty.1
  · rfl

/-- A folder becomes one directory, or none if nothing was read in it. -/
theorem directories_inFolder (name : String) (inner : Reading) :
    ((inner.files = [] ∧ inner.directories = []) ∧ (inner.inFolder name).directories = []) ∨
      (inner.files ≠ [] ∨ inner.directories ≠ []) ∧
        (inner.inFolder name).directories = [⟨name, inner.files, inner.directories⟩] := by
  rw [inFolder]
  split
  · rename_i empty
    simp only [Bool.and_eq_true, List.isEmpty_iff] at empty
    exact .inl ⟨empty, empty.2⟩
  · rename_i inhabited
    refine .inr ⟨?_, rfl⟩
    by_contra empty
    push Not at empty
    simp [empty] at inhabited

theorem names_inFolder (name : String) (inner : Reading) :
    (inner.inFolder name).directories.map (·.name) ⊆ [name] := by
  rcases inner.directories_inFolder name with ⟨-, none⟩ | ⟨-, one⟩
  · simp [none]
  · simp [one]

/-- Names are told apart in what was read, and no directory in it is empty. -/
structure Tidy (reading : Reading) : Prop where
  fileNames : (reading.files.map (·.name)).Nodup
  directoryNames : (reading.directories.map (·.name)).Nodup
  below : ∀ directory ∈ reading.directories, directory.Tidy

namespace Tidy

theorem nothing (sources : Sources) : (Reading.nothing sources).Tidy :=
  ⟨.nil, .nil, fun _ absent => absurd absent List.not_mem_nil⟩

theorem ofFile (path module text : String) (sources : Sources) :
    (Reading.ofFile path module text sources).Tidy :=
  ⟨List.nodup_singleton _, .nil, fun _ absent => absurd absent List.not_mem_nil⟩

theorem inFolder {inner : Reading} (tidy : inner.Tidy) (name : String) :
    (inner.inFolder name).Tidy := by
  have fileNames : ((inner.inFolder name).files.map (·.name)).Nodup := by simp
  rcases inner.directories_inFolder name with ⟨-, none⟩ | ⟨inhabited, one⟩
  · exact ⟨fileNames, by simp [none], by simp [none]⟩
  · refine ⟨fileNames, by simp [one], fun directory mem => ?_⟩
    rw [one] at mem
    obtain rfl := List.mem_singleton.mp mem
    exact .mk tidy.fileNames tidy.directoryNames inhabited tidy.below

theorem followedBy {first later : Reading} (tidy : first.Tidy) (laterTidy : later.Tidy)
    (files : (first.files.map (·.name)).Disjoint (later.files.map (·.name)))
    (directories : (first.directories.map (·.name)).Disjoint (later.directories.map (·.name))) :
    (first.followedBy later).Tidy := by
  constructor
  case fileNames =>
    rw [files_followedBy, List.map_append]
    exact List.nodup_append'.mpr ⟨tidy.fileNames, laterTidy.fileNames, files⟩
  case directoryNames =>
    rw [directories_followedBy, List.map_append]
    exact List.nodup_append'.mpr ⟨tidy.directoryNames, laterTidy.directoryNames, directories⟩
  case below =>
    intro directory mem
    rcases List.mem_append.mp mem with mem | mem
    · exact tidy.below directory mem
    · exact laterTidy.below directory mem

end Tidy

/-- Filing the files of a walk adds what was read to every directory whose sub-directories have
names other than the given ones. -/
def IsFiled (names : List String) (walk : List (List String × ModuleSource)) (reading : Reading) :
    Prop :=
  ∀ (name : String) (files : List ModuleSource) (directories : List DirectorySource),
    (directories.map (·.name)).Disjoint names →
      DirectorySource.fileAll walk ⟨name, files, directories⟩ =
        ⟨name, files ++ reading.files, directories ++ reading.directories⟩

namespace IsFiled

variable {names : List String} {walk later : List (List String × ModuleSource)}

theorem nothing (sources : Sources) : (Reading.nothing sources).IsFiled names [] := by
  intro name files directories _
  simp [DirectorySource.fileAll, Reading.nothing]

theorem cons {reading : Reading} (filed : reading.IsFiled names walk) (name : String) :
    reading.IsFiled (name :: names) walk := by
  intro directory files directories apart
  exact filed directory files directories (List.disjoint_cons_right.mp apart).2

theorem file {reading : Reading} (filed : reading.IsFiled names walk) (path module text : String)
    (sources : Sources) : ((ofFile path module text sources).followedBy reading).IsFiled names
      (([], (Outline.read text).toModule module sources.nextId) :: walk) := by
  intro name files directories apart
  let placed := (Outline.read text).toModule module sources.nextId
  have step : DirectorySource.fileAll (([], placed) :: walk) ⟨name, files, directories⟩ =
    DirectorySource.fileAll walk ⟨name, files ++ [placed], directories⟩ := rfl
  rw [step, filed _ _ _ apart]
  simp [placed]

/-- A run through a folder, followed by a run through what comes after the folder. -/
theorem folder {inner reading : Reading} {innerNames : List String} {name : String}
    (filed : inner.IsFiled innerNames walk) (fresh : name ∉ names)
    (filedLater : reading.IsFiled names later) :
    ((inner.inFolder name).followedBy reading).IsFiled (name :: names)
      (walk.map (DirectorySource.under [name]) ++ later) := by
  intro directory files directories apart
  obtain ⟨notThere, apart⟩ := List.disjoint_cons_right.mp apart
  have whole := filed name [] [] (List.disjoint_nil_left _)
  rw [List.nil_append, List.nil_append] at whole
  have made : DirectorySource.fileAll (walk.map (DirectorySource.under [name]))
      ⟨directory, files, directories⟩ =
        ⟨directory, files, directories ++ (inner.inFolder name).directories⟩ := by
    rcases inner.directories_inFolder name with ⟨⟨noFile, noDirectory⟩, none⟩ | ⟨inhabited, one⟩
    · have empty := DirectorySource.located_fileAll_perm walk ⟨name, [], []⟩
      rw [whole, noFile, noDirectory, DirectorySource.located_nil, List.append_nil] at empty
      obtain rfl := empty.nil_eq
      simp [none, DirectorySource.fileAll]
    · have some_file : walk ≠ [] := by
        rintro rfl
        obtain ⟨-, noFile, noDirectory⟩ := DirectorySource.mk.inj whole
        exact inhabited.elim (absurd noFile.symm) (absurd noDirectory.symm)
      rw [DirectorySource.fileAll_under notThere some_file, whole, one]
  have apartLater : ((directories ++ (inner.inFolder name).directories).map (·.name)).Disjoint
      names := by
    rw [List.map_append, List.disjoint_append_left]
    refine ⟨apart, fun key mine there => ?_⟩
    obtain rfl := List.mem_singleton.mp (inner.names_inFolder name mine)
    exact fresh there
  rw [DirectorySource.fileAll_append, made, filedLater _ _ _ apartLater]
  simp

end IsFiled

end Reading

namespace Entry

variable {extension : String}

theorem moduleName?_eq_some_iff {name module : String} :
    moduleName? extension name = some module ↔
      Path.extension? name = some extension ∧ Path.stem name = module := by
  rw [moduleName?]
  split <;> simp [*]

/-- A file in or below an entry has the entry on its way. -/
theorem name_mem_of_mem_regular {parents : List String} {entry : Entry} {file : FoundFile}
    (mem : file ∈ regular parents entry) : entry.name ∈ file.parents ++ [file.name] := by
  cases entry with
  | file name text =>
    rw [regular] at mem
    obtain rfl := List.mem_singleton.mp mem
    exact List.mem_append_right _ (List.mem_singleton.mpr rfl)
  | folder name inside =>
    rw [regular] at mem
    obtain ⟨more, same⟩ := prefix_of_mem_regularAll inside mem
    have onWay : name ∈ file.parents := by simp [← same]
    exact List.mem_append_left _ onWay

/-- No source file lies in an entry that is passed over. -/
theorem filter_regular_of_isSkipped {parents : List String} {entry : Entry}
    (skipped : entry.IsSkipped extension) :
    (regular parents entry).filter (·.isSource extension) = [] := by
  refine List.filter_eq_nil_iff.mpr fun file mem source => ?_
  obtain ⟨extended, shown⟩ := FoundFile.isSource_iff.mp source
  cases skipped with
  | hidden hidden =>
    have same : isHidden entry = false := shown _ (name_mem_of_mem_regular mem)
    rw [hidden] at same
    cases same
  | other noModule =>
    rw [regular] at mem
    obtain rfl := List.mem_singleton.mp mem
    rw [moduleName?, if_pos extended] at noModule
    cases noModule

/-- A file that is not passed over is a source file below the root. -/
theorem filter_regular_of_named {parents : List String} {name module : String}
    {text : Option String} (openWay : ∀ piece ∈ parents, FoundFile.isHiding piece = false)
    (shown : isHidden (.file name text) = false)
    (named : moduleName? extension name = some module) :
    (regular parents (.file name text)).filter (·.isSource extension) =
      [⟨parents, name, text⟩] := by
  rw [regular]
  refine List.filter_cons_of_pos (FoundFile.isSource_iff.mpr ⟨?_, fun piece mem => ?_⟩)
  · exact (moduleName?_eq_some_iff.mp named).1
  · exact FoundFile.shown_append openWay shown piece mem

/-- What is read below a root are its source files, in the order of the walk through its folders.
Filing them one by one makes up what was read. -/
theorem Reads.walked (root : String) {path : String} {entries : List Entry} {sources : Sources}
    {reading : Reading} (reads : Reads extension path entries sources reading)
    (distinct : Distinct entries) :
    ∀ parents : List String, parents.foldl Path.join root = path →
      (∀ piece ∈ parents, FoundFile.isHiding piece = false) →
        ∃ walk, List.Forall₂ (FoundFile.Became root reading.sources)
          ((regularAll parents entries).filter (·.isSource extension))
            (walk.map (DirectorySource.under parents)) ∧
              reading.IsFiled (entries.map Entry.name) walk := by
  induction reads with
  | nil => exact fun parents _ _ => ⟨[], .nil, .nothing _⟩
  | @skip _ entry _ _ _ skipped _ ih =>
    obtain ⟨-, -, distinct⟩ := distinct_cons_iff.mp distinct
    intro parents way openWay
    obtain ⟨walk, became, filed⟩ := ih distinct parents way openWay
    refine ⟨walk, ?_, filed.cons _⟩
    rwa [regularAll, List.filter_append, filter_regular_of_isSkipped skipped, List.nil_append]
  | @file path name text module entries sources reading shown named rest ih =>
    obtain ⟨-, -, distinct⟩ := distinct_cons_iff.mp distinct
    intro parents way openWay
    obtain ⟨walk, became, filed⟩ := ih distinct parents way openWay
    obtain ⟨-, rfl⟩ := moduleName?_eq_some_iff.mp named
    refine ⟨_, ?_, (filed.file (Path.join path name) (Path.stem name) text sources).cons _⟩
    rw [regularAll, List.filter_append, filter_regular_of_named openWay shown named,
      List.singleton_append]
    refine .cons ⟨List.append_nil _, sources.nextId, text, rfl, ?_, rfl⟩ became
    obtain ⟨files, same, -⟩ := rest.registers
    rw [Reading.sources_followedBy, same, List.foldl_append, way]
    simp [Sources.file?, Sources.nextId]
  | @folder path name inside entries sources inner reading shown within rest ihWithin ihRest =>
    obtain ⟨fresh, alone, distinct⟩ := distinct_cons_iff.mp distinct
    have distinctInside : Distinct inside := by
      cases alone
      assumption
    intro parents way openWay
    have wayInside : (parents ++ [name]).foldl Path.join root = Path.join path name := by
      rw [List.foldl_append, way]
      rfl
    obtain ⟨walk, became, filed⟩ :=
      ihWithin distinctInside _ wayInside (FoundFile.shown_append openWay shown)
    obtain ⟨later, becameLater, filedLater⟩ := ihRest distinct parents way openWay
    obtain ⟨files, same, -⟩ := rest.registers
    have grown : inner.sources <+: reading.sources := ⟨files, same.symm⟩
    refine ⟨walk.map (DirectorySource.under [name]) ++ later, ?_, filed.folder fresh filedLater⟩
    rw [regularAll, regular, List.filter_append, List.map_append,
      DirectorySource.map_under_under]
    exact List.rel_append (became.imp fun _ _ became => became.mono grown) becameLater

/-- Modules and directories that were read are named by entries of the folder. -/
theorem Reads.named {path : String} {entries : List Entry} {sources : Sources} {reading : Reading}
    (reads : Reads extension path entries sources reading) :
    (∀ module ∈ reading.files.map (·.name), ∃ name ∈ entries.map Entry.name,
      moduleName? extension name = some module) ∧
        reading.directories.map (·.name) ⊆ entries.map Entry.name := by
  induction reads with
  | nil => simp [Reading.nothing]
  | skip _ _ ih =>
    obtain ⟨files, directories⟩ := ih
    refine ⟨fun module mem => ?_, List.subset_cons_of_subset _ directories⟩
    obtain ⟨name, there, named⟩ := files module mem
    exact ⟨name, .tail _ there, named⟩
  | @file _ name _ _ _ _ _ _ named _ ih =>
    obtain ⟨files, directories⟩ := ih
    refine ⟨fun module mem => ?_, List.subset_cons_of_subset _ directories⟩
    rcases List.mem_cons.mp mem with rfl | mem
    · exact ⟨name, .head _, named⟩
    · obtain ⟨name, there, named⟩ := files module mem
      exact ⟨name, .tail _ there, named⟩
  | @folder _ name _ _ _ inner _ _ _ _ _ ih =>
    obtain ⟨files, directories⟩ := ih
    constructor
    · intro module mem
      rw [Reading.files_followedBy, Reading.files_inFolder, List.nil_append] at mem
      obtain ⟨name, there, named⟩ := files module mem
      exact ⟨name, .tail _ there, named⟩
    · rw [Reading.directories_followedBy, List.map_append]
      refine List.append_subset.mpr ⟨fun key mem => ?_, List.subset_cons_of_subset _ directories⟩
      obtain rfl := List.mem_singleton.mp (inner.names_inFolder name mem)
      exact .head _

/-- Where names differ in all folders, what is read is tidy. -/
theorem Reads.tidy {path : String} {entries : List Entry} {sources : Sources} {reading : Reading}
    (reads : Reads extension path entries sources reading) (distinct : Distinct entries) :
    reading.Tidy := by
  induction reads with
  | nil => exact .nothing _
  | skip _ _ ih => exact ih (distinct_cons_iff.mp distinct).2.2
  | file _ named rest ih =>
    obtain ⟨fresh, -, distinct⟩ := distinct_cons_iff.mp distinct
    refine (Reading.Tidy.ofFile ..).followedBy (ih distinct) ?_ (List.disjoint_nil_left _)
    rw [Reading.files_ofFile, List.map_singleton, List.singleton_disjoint]
    intro again
    -- An entry of the same stem has the same name, as both have the extension.
    obtain ⟨other, there, otherNamed⟩ := rest.named.1 _ again
    obtain ⟨extended, rfl⟩ := moduleName?_eq_some_iff.mp named
    obtain ⟨otherExtended, sameStem⟩ := moduleName?_eq_some_iff.mp otherNamed
    rw [Path.name_inj otherExtended extended sameStem] at there
    exact fresh there
  | @folder _ name _ _ _ inner _ _ _ rest within later =>
    obtain ⟨fresh, alone, distinct⟩ := distinct_cons_iff.mp distinct
    have inside : inner.Tidy := by
      cases alone with
      | folder _ distinctInside => exact within distinctInside
    refine (inside.inFolder name).followedBy (later distinct) (by simp) fun key mine again => ?_
    obtain rfl := List.mem_singleton.mp (inner.names_inFolder name mine)
    exact fresh (rest.named.2 again)

end Entry

end LetModules
