import LetModules.Proofs.Tree.Ambiguity
import Mathlib.Data.List.Lattice

/-!
Layouts in which names are told apart, directory by directory. Then no two files have one place and
one name (`nodup_located`), and only one kind of conflict is left: a plain file beside a directory
of its name in which a file has that name again (`conflicts_ne_nil_iff_clash`). A tidy directory
moreover has a file somewhere below it (`Tidy.located_ne_nil`).
-/

namespace LetModules

namespace DirectorySource

mutual

/-- The files in and below the directory at `path`, each with the directory that it lies in. -/
def located (path : List String) : DirectorySource → List (List String × ModuleSource)
  | ⟨_, files, directories⟩ => files.map (path, ·) ++ locatedAll path directories

/-- The files below the sub-directories of `path`. -/
def locatedAll (path : List String) : List DirectorySource → List (List String × ModuleSource)
  | [] => []
  | child :: rest => located (path ++ [child.name]) child ++ locatedAll path rest

end

/-- Names are told apart in the directory and in all below: those of files and those of
directories. -/
structure Apart (source : DirectorySource) : Prop where
  fileNames : ∀ d ∈ source.subtree, (d.files.map (·.name)).Nodup
  directoryNames : ∀ d ∈ source.subtree, (d.directories.map (·.name)).Nodup

/-- Names are told apart in a directory and in all below, and none of these is empty. -/
inductive Tidy : DirectorySource → Prop
  | mk {name : String} {files : List ModuleSource} {directories : List DirectorySource}
      (fileNames : (files.map (·.name)).Nodup)
      (directoryNames : (directories.map (·.name)).Nodup)
      (inhabited : files ≠ [] ∨ directories ≠ [])
      (below : ∀ child ∈ directories, Tidy child) : Tidy ⟨name, files, directories⟩

/-- Somewhere in or below the directory a plain file lies beside a sub-directory of its name, in
which a file has that name again. -/
inductive Clash : Bool → DirectorySource → Prop
  | here {isRoot : Bool} {source child : DirectorySource} {plain inner : ModuleSource}
      (beside : child ∈ source.directories) (mem : plain ∈ source.plainFiles isRoot)
      (named : plain.name = child.name) (inside : inner ∈ child.files)
      (again : inner.name = child.name) : Clash isRoot source
  | deeper {isRoot : Bool} {source child : DirectorySource} (mem : child ∈ source.directories)
      (clash : Clash false child) : Clash isRoot source

theorem locatedAll_eq_flatMap (path : List String) (directories : List DirectorySource) :
    locatedAll path directories =
      directories.flatMap fun child => child.located (path ++ [child.name]) := by
  induction directories with
  | nil => rfl
  | cons child rest ih => rw [locatedAll, ih, List.flatMap_cons]

theorem located_eq (path : List String) (source : DirectorySource) : source.located path =
    source.files.map (path, ·) ++
      source.directories.flatMap fun child => child.located (path ++ [child.name]) := by
  cases source
  rw [located, locatedAll_eq_flatMap]

theorem located_nil (path : List String) (name : String) : located path ⟨name, [], []⟩ = [] := rfl

/-- What lies in or below a directory has the directory on its way. -/
theorem prefix_of_mem_located {path : List String} {source : DirectorySource}
    {entry : List String × ModuleSource} (mem : entry ∈ source.located path) :
    path <+: entry.1 := by
  induction source using DirectorySource.induction generalizing path with
  | step source ih =>
    rw [located_eq] at mem
    rcases List.mem_append.mp mem with mem | mem
    · obtain ⟨file, -, rfl⟩ := List.mem_map.mp mem
      exact List.prefix_rfl
    · obtain ⟨child, hc, mem⟩ := List.mem_flatMap.mp mem
      exact (List.prefix_append _ _).trans (ih child hc mem)

theorem apart_iff {source : DirectorySource} : source.Apart ↔
    (source.files.map (·.name)).Nodup ∧ (source.directories.map (·.name)).Nodup ∧
      ∀ child ∈ source.directories, child.Apart := by
  constructor
  · rintro ⟨files, directories⟩
    rw [subtree_eq, List.forall_mem_cons, List.forall_mem_flatMap] at files directories
    exact ⟨files.1, directories.1,
      fun child mem => ⟨files.2 child mem, directories.2 child mem⟩⟩
  · rintro ⟨files, directories, below⟩
    constructor <;> rw [subtree_eq, List.forall_mem_cons, List.forall_mem_flatMap]
    · exact ⟨files, fun child mem => (below child mem).fileNames⟩
    · exact ⟨directories, fun child mem => (below child mem).directoryNames⟩

/-- Where names are told apart, no two files have one place and one name. -/
theorem nodup_located {source : DirectorySource} (apart : source.Apart) (path : List String) :
    ((source.located path).map fun entry => (entry.1, entry.2.name)).Nodup := by
  induction source using DirectorySource.induction generalizing path with
  | step source ih =>
    obtain ⟨files, directories, below⟩ := apart_iff.mp apart
    have own : ((source.files.map (path, ·)).map fun entry => (entry.1, entry.2.name)).Nodup := by
      refine List.Nodup.of_map Prod.snd ?_
      simpa [Function.comp_def] using files
    have within : ∀ {child : DirectorySource} {key : List String × String},
        key ∈ (child.located (path ++ [child.name])).map (fun entry => (entry.1, entry.2.name)) →
          path ++ [child.name] <+: key.1 := by
      intro child key mem
      obtain ⟨entry, there, rfl⟩ := List.mem_map.mp mem
      exact prefix_of_mem_located there
    rw [located_eq, List.map_append, List.map_flatMap, List.nodup_append', List.nodup_flatMap]
    refine ⟨own, ⟨fun child mem => ih child mem (below child mem) _,
      (List.pairwise_map.mp directories).imp ?_⟩, ?_⟩
    · intro a b differ key ha hb
      have same := List.prefix_of_prefix_length_le (within ha) (within hb) (by simp)
      refine differ ?_
      simpa using same.eq_of_length (by simp)
    · intro key mine its
      obtain ⟨entry, mem, rfl⟩ := List.mem_map.mp mine
      obtain ⟨file, -, rfl⟩ := List.mem_map.mp mem
      obtain ⟨child, -, mem⟩ := List.mem_flatMap.mp its
      exact absurd (within mem).length_le (by simp)

namespace Tidy

theorem apart {source : DirectorySource} (tidy : source.Tidy) : source.Apart := by
  induction tidy with
  | mk fileNames directoryNames _ _ ih => exact apart_iff.mpr ⟨fileNames, directoryNames, ih⟩

/-- All below a tidy directory is tidy. -/
theorem of_mem_subtree {source : DirectorySource} (tidy : source.Tidy) :
    ∀ d ∈ source.subtree, d.Tidy := by
  induction tidy with
  | mk fileNames directoryNames inhabited below ih =>
    intro d hd
    rw [subtree_eq] at hd
    rcases List.mem_cons.mp hd with rfl | hd
    · exact .mk fileNames directoryNames inhabited below
    · obtain ⟨child, hc, hd⟩ := List.mem_flatMap.mp hd
      exact ih child hc d hd

/-- Some file lies in or below a tidy directory. -/
theorem located_ne_nil {source : DirectorySource} (tidy : source.Tidy) (path : List String) :
    source.located path ≠ [] := by
  induction tidy generalizing path with
  | @mk name files directories _ _ inhabited _ ih =>
    rw [located_eq]
    intro empty
    obtain ⟨noFile, noneBelow⟩ := List.append_eq_nil_iff.mp empty
    rcases inhabited with some_file | some_directory
    · exact some_file (List.map_eq_nil_iff.mp noFile)
    · obtain ⟨child, hc⟩ := List.exists_mem_of_ne_nil _ some_directory
      exact ih child hc _ (List.flatMap_eq_nil_iff.mp noneBelow child hc)

end Tidy

/-- At most one file of a directory has its name, if names are told apart. -/
theorem length_folding_le_one {isRoot : Bool} {source : DirectorySource}
    (files : (source.files.map (·.name)).Nodup) :
    (source.files.filter (foldsInto isRoot source.name)).length ≤ 1 := by
  have distinct := files.sublist
    ((List.filter_sublist (p := foldsInto isRoot source.name)).map (·.name))
  have named : ∀ file ∈ source.files.filter (foldsInto isRoot source.name),
      file.name = source.name := by
    intro file mem
    have folds := (List.mem_filter.mp mem).2
    simp only [foldsInto, Bool.and_eq_true, decide_eq_true_eq] at folds
    exact folds.2
  generalize source.files.filter (foldsInto isRoot source.name) = folding at distinct named
  rcases folding with _ | ⟨a, _ | ⟨b, rest⟩⟩
  · simp
  · simp
  · have same : a.name = b.name := by
      rw [named a (by simp), named b (by simp)]
    simp [same] at distinct

/-- Where names are told apart, a conflict is a clash. -/
theorem conflicts_ne_nil_iff_clash {isRoot : Bool} {path : List String} {source : DirectorySource}
    (apart : source.Apart) : conflicts isRoot path source ≠ [] ↔ source.Clash isRoot := by
  induction source using DirectorySource.induction generalizing isRoot path with
  | step source ih =>
    obtain ⟨files, directories, below⟩ := apart_iff.mp apart
    have below : ∀ child ∈ source.directories,
        (conflicts false (path ++ [child.name]) child ≠ [] ↔ child.Clash false) :=
      fun child mem => ih child mem (below child mem)
    rw [ne_eq, conflicts_eq_nil_iff]
    constructor
    · intro conflict
      by_contra noClash
      refine conflict ⟨⟨length_folding_le_one files,
        files.sublist (List.filter_sublist.map _), directories, ?_⟩, ?_⟩
      · intro child hc folded beside
        obtain ⟨plain, hp, named⟩ := List.mem_map.mp beside
        obtain ⟨inner, hi, again⟩ := List.any_eq_true.mp folded
        exact noClash (.here hc hp named hi (by simpa using again))
      · intro child hc
        by_contra conflict
        exact noClash (.deeper hc ((below child hc).mp conflict))
    · rintro clash ⟨clear, free⟩
      cases clash with
      | @here _ _ child plain inner hc hp named hi again =>
        have folded : child.isFolded = true := List.any_eq_true.mpr ⟨inner, hi, by simpa⟩
        exact clear.apart child hc folded (List.mem_map.mpr ⟨plain, hp, named⟩)
      | deeper hc clash => exact (below _ hc).mpr clash (free _ hc)

end DirectorySource

end LetModules
