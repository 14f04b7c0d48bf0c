import LetModules.Files.Reading
import Mathlib.Data.List.Perm.Basic

/-!
The source files below a root, as they are found by looking at every regular file: those with the
extension, a name in front of it and no leading dot on the way. Sorting folders changes their order
only (`sourceFiles_sortedAll`), and it keeps the names in each folder apart
(`Distinct.sortedAll`).
-/

namespace LetModules

namespace Path

/-- A file name with an extension is made of its stem, a dot and the extension. -/
theorem of_extension?_eq_some {name extension : String} (h : extension? name = some extension) :
    stem name ≠ "" ∧ name = stem name ++ "." ++ extension := by
  rw [extension?, cutAtDot] at h
  rw [stem, cutAtDot]
  have whole := List.takeWhile_append_dropWhile (p := (· ≠ '.')) (l := name.toList.reverse)
  split at h
  · rename_i before dot
    rw [dot] at whole
    split at h
    · cases h
    · rename_i nonempty
      obtain rfl := Option.some.inj h
      have turned := congrArg List.reverse whole
      rw [List.reverse_reverse] at turned
      rw [if_neg nonempty]
      refine ⟨by simpa using nonempty, String.toList_inj.mp (turned.symm.trans ?_)⟩
      simp
  · cases h

/-- Of files with one extension, the stem tells the name. -/
theorem name_inj {a b extension : String} (ha : extension? a = some extension)
    (hb : extension? b = some extension) (same : stem a = stem b) : a = b := by
  rw [(of_extension?_eq_some ha).2, (of_extension?_eq_some hb).2, same]

end Path

/-- A regular file below a root: the folders on the way, its name, and its text if it has one. -/
structure FoundFile where
  parents : List String
  name : String
  text : Option String

namespace FoundFile

/-- A piece of a path that hides what it leads to. -/
def isHiding (piece : String) : Bool := piece.toList.head? = some '.'

/-- The file has the extension and a name in front of it, and nothing on the way is hidden. -/
def isSource (extension : String) (file : FoundFile) : Bool :=
  Path.extension? file.name = some extension && Path.stem file.name ≠ "" &&
    (file.parents ++ [file.name]).all (!isHiding ·)

/-- A way stays open when a shown piece is added to it. -/
theorem shown_append {parents : List String} {name : String}
    (openWay : ∀ piece ∈ parents, isHiding piece = false) (shown : isHiding name = false) :
    ∀ piece ∈ parents ++ [name], isHiding piece = false :=
  List.forall_mem_append.mpr ⟨openWay, List.forall_mem_singleton.mpr shown⟩

/-- What has an extension also has a name in front of it. -/
theorem isSource_iff {extension : String} {file : FoundFile} : file.isSource extension = true ↔
    Path.extension? file.name = some extension ∧
      ∀ piece ∈ file.parents ++ [file.name], isHiding piece = false := by
  simp only [isSource, Bool.and_eq_true, decide_eq_true_eq, List.all_eq_true,
    Bool.not_eq_true']
  constructor
  · rintro ⟨⟨extended, -⟩, shown⟩
    exact ⟨extended, shown⟩
  · rintro ⟨extended, shown⟩
    exact ⟨⟨extended, (Path.of_extension?_eq_some extended).1⟩, shown⟩

end FoundFile

namespace Entry

mutual

/-- The regular files in an entry of the folder at `parents`. -/
def regular (parents : List String) : Entry → List FoundFile
  | .file name text => [⟨parents, name, text⟩]
  | .folder name entries => regularAll (parents ++ [name]) entries

/-- The regular files below the folder at `parents`, given its entries. -/
def regularAll (parents : List String) : List Entry → List FoundFile
  | [] => []
  | entry :: entries => regular parents entry ++ regularAll parents entries

end

/-- The source files below a root with the given entries. -/
def sourceFiles (extension : String) (entries : List Entry) : List FoundFile :=
  (regularAll [] entries).filter (·.isSource extension)

/-- Names differ from one another in a folder with the given entries and in all folders below. -/
inductive Distinct : List Entry → Prop
  | nil : Distinct []
  | file {name : String} {text : Option String} {entries : List Entry}
      (fresh : name ∉ entries.map Entry.name) (rest : Distinct entries) :
      Distinct (.file name text :: entries)
  | folder {name : String} {inside entries : List Entry}
      (fresh : name ∉ entries.map Entry.name) (within : Distinct inside)
      (rest : Distinct entries) : Distinct (.folder name inside :: entries)

theorem regularAll_eq_flatMap (parents : List String) (entries : List Entry) :
    regularAll parents entries = entries.flatMap (regular parents) := by
  induction entries with
  | nil => rfl
  | cons entry entries ih => rw [regularAll, ih, List.flatMap_cons]

mutual

/-- A file below a folder has the folder on its way. -/
theorem prefix_of_mem_regular {parents : List String} {file : FoundFile} : ∀ entry : Entry,
    file ∈ regular parents entry → parents <+: file.parents
  | .file name text, mem => by
    rw [regular] at mem
    obtain rfl := List.mem_singleton.mp mem
    exact List.prefix_rfl
  | .folder name entries, mem => by
    rw [regular] at mem
    exact (List.prefix_append _ _).trans (prefix_of_mem_regularAll entries mem)

theorem prefix_of_mem_regularAll {parents : List String} {file : FoundFile} :
    ∀ entries : List Entry, file ∈ regularAll parents entries → parents <+: file.parents
  | [], mem => absurd mem List.not_mem_nil
  | entry :: entries, mem => by
    rw [regularAll] at mem
    rcases List.mem_append.mp mem with mem | mem
    · exact prefix_of_mem_regular entry mem
    · exact prefix_of_mem_regularAll entries mem

end

/-! ### Sorting -/

theorem insert_perm (entry : Entry) (entries : List Entry) :
    (insert entry entries).Perm (entry :: entries) := by
  induction entries with
  | nil => exact .refl _
  | cons first rest ih =>
    rw [insert]
    split
    · exact .refl _
    · exact (ih.cons first).trans (.swap entry first rest)

theorem sortedAll_perm (entries : List Entry) :
    (sortedAll entries).Perm (entries.map sorted) := by
  induction entries with
  | nil => exact .refl _
  | cons entry entries ih =>
    rw [sortedAll]
    exact (insert_perm _ _).trans (ih.cons _)

theorem regularAll_sortedAll_perm (parents : List String) (entries : List Entry) :
    (regularAll parents (sortedAll entries)).Perm
      (entries.flatMap fun entry => regular parents (sorted entry)) := by
  have moved := (sortedAll_perm entries).flatMap_right (regular parents)
  rw [List.flatMap_map] at moved
  rw [regularAll_eq_flatMap]
  exact moved

mutual

/-- Sorting the folders of an entry keeps its files. -/
theorem regular_sorted_perm (parents : List String) : ∀ entry : Entry,
    (regular parents (sorted entry)).Perm (regular parents entry)
  | .file name text => by
    rw [sorted]
  | .folder name entries => by
    rw [sorted, regular, regular]
    exact (regularAll_sortedAll_perm _ entries).trans (regularAll_sorted_perm _ entries)

theorem regularAll_sorted_perm (parents : List String) : ∀ entries : List Entry,
    (entries.flatMap fun entry => regular parents (sorted entry)).Perm (regularAll parents entries)
  | [] => .refl _
  | entry :: entries => by
    rw [List.flatMap_cons, regularAll]
    exact (regular_sorted_perm parents entry).append (regularAll_sorted_perm parents entries)

end

/-- Sorting keeps the source files, in some order. -/
theorem sourceFiles_sortedAll (extension : String) (entries : List Entry) :
    (sourceFiles extension (sortedAll entries)).Perm (sourceFiles extension entries) :=
  ((regularAll_sortedAll_perm [] entries).trans (regularAll_sorted_perm [] entries)).filter _

@[simp] theorem name_sorted (entry : Entry) : (sorted entry).name = entry.name := by
  cases entry <;> simp [sorted, name]

theorem distinct_cons_iff {entry : Entry} {entries : List Entry} :
    Distinct (entry :: entries) ↔
      entry.name ∉ entries.map name ∧ Distinct [entry] ∧ Distinct entries := by
  constructor
  · rintro (_ | ⟨fresh, rest⟩ | ⟨fresh, within, rest⟩)
    · exact ⟨fresh, .file List.not_mem_nil .nil, rest⟩
    · exact ⟨fresh, .folder List.not_mem_nil within .nil, rest⟩
  · rintro ⟨fresh, alone, rest⟩
    cases alone with
    | file => exact .file fresh rest
    | folder _ within => exact .folder fresh within rest

theorem Distinct.perm {a b : List Entry} (distinct : Distinct a) (perm : a.Perm b) :
    Distinct b := by
  induction perm with
  | nil => exact distinct
  | cons entry perm ih =>
    obtain ⟨fresh, alone, rest⟩ := distinct_cons_iff.mp distinct
    refine distinct_cons_iff.mpr ⟨?_, alone, ih rest⟩
    rwa [← (perm.map name).mem_iff]
  | swap x y =>
    obtain ⟨freshY, aloneY, tail⟩ := distinct_cons_iff.mp distinct
    obtain ⟨freshX, aloneX, tail⟩ := distinct_cons_iff.mp tail
    rw [List.map_cons, List.mem_cons, not_or] at freshY
    refine distinct_cons_iff.mpr ⟨?_, aloneX, distinct_cons_iff.mpr ⟨freshY.2, aloneY, tail⟩⟩
    rw [List.map_cons, List.mem_cons, not_or]
    exact ⟨Ne.symm freshY.1, freshX⟩
  | trans _ _ first second => exact second (first distinct)

/-- Sorting keeps names apart. -/
theorem Distinct.sortedAll {entries : List Entry} (distinct : Distinct entries) :
    Distinct (sortedAll entries) := by
  refine Distinct.perm ?_ (sortedAll_perm entries).symm
  have names : ∀ entries : List Entry, (entries.map sorted).map name = entries.map name := by
    intro entries
    simp
  induction distinct with
  | nil => exact .nil
  | file fresh _ rest =>
    rw [List.map_cons, sorted]
    exact .file (by rwa [names]) rest
  | folder fresh _ _ within rest =>
    rw [List.map_cons, sorted]
    exact .folder (by rwa [names]) (within.perm (sortedAll_perm _).symm) rest

end Entry

end LetModules
