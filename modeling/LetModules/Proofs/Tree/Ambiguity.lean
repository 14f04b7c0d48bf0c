import LetModules.Proofs.Tree.Sound
import Mathlib.Data.List.Infix

/-!
Which layouts are refused. A root is unambiguous if the sub-directories of each directory have
different names and no two files own one path, however far apart they lie. The check looks only at
what lies side by side; that is enough, because all that lies below a directory owns paths that
begin with the directory's (`prefix_of_mem_ownedPaths`) and only folding files own that path itself
(`mem_ownedPaths_self_iff`). So a package is taken exactly if its name is free and its roots are
unambiguous.
-/

namespace LetModules

namespace DirectorySource

mutual

/-- The directory and all below it. -/
def subtree : DirectorySource → List DirectorySource
  | ⟨name, files, directories⟩ => ⟨name, files, directories⟩ :: subtrees directories

/-- The directories of several subtrees, one after the other. -/
def subtrees : List DirectorySource → List DirectorySource
  | [] => []
  | directory :: rest => subtree directory ++ subtrees rest

end

mutual

/-- The paths that the files in and below a directory with the path `path` own, each file's once. -/
def ownedPaths (isRoot : Bool) (path : List String) : DirectorySource → List (List String)
  | ⟨name, files, directories⟩ =>
    files.map (ownedPath isRoot name path) ++ childOwnedPaths path directories

/-- The paths that the files below the sub-directories of `path` own. -/
def childOwnedPaths (path : List String) : List DirectorySource → List (List String)
  | [] => []
  | child :: rest => ownedPaths false (path ++ [child.name]) child ++ childOwnedPaths path rest

end

/-- In and below a directory with the path `path`, names tell sub-directories apart and owned paths
tell files apart. -/
structure Unambiguous (isRoot : Bool) (path : List String) (source : DirectorySource) : Prop where
  directories : ∀ d ∈ source.subtree, (d.directories.map (·.name)).Nodup
  files : (source.ownedPaths isRoot path).Nodup

theorem subtree_eq (source : DirectorySource) :
    source.subtree = source :: source.directories.flatMap subtree := by
  have below : ∀ directories : List DirectorySource,
      subtrees directories = directories.flatMap subtree := by
    intro directories
    induction directories with
    | nil => rfl
    | cons d rest ih => rw [subtrees, ih, List.flatMap_cons]
  cases source
  rw [subtree, below]

theorem ownedPaths_eq (isRoot : Bool) (path : List String) (source : DirectorySource) :
    source.ownedPaths isRoot path = source.files.map (ownedPath isRoot source.name path) ++
      source.directories.flatMap fun child => child.ownedPaths false (path ++ [child.name]) := by
  have below : ∀ directories : List DirectorySource, childOwnedPaths path directories =
      directories.flatMap fun child => child.ownedPaths false (path ++ [child.name]) := by
    intro directories
    induction directories with
    | nil => rfl
    | cons child rest ih => rw [childOwnedPaths, ih, List.flatMap_cons]
  cases source
  rw [ownedPaths, below]

/-- What holds of a source whenever it holds of all its sub-directories holds of every source. -/
@[elab_as_elim]
theorem induction {motive : DirectorySource → Prop}
    (step : ∀ source, (∀ child ∈ source.directories, motive child) → motive source)
    (source : DirectorySource) : motive source := by
  refine @DirectorySource.rec motive (fun directories => ∀ child ∈ directories, motive child)
    ?_ ?_ ?_ source
  · exact fun _ _ _ below => step _ below
  · exact fun _ absent => absurd absent List.not_mem_nil
  · intro head tail atHead atTail child mem
    rcases List.mem_cons.mp mem with rfl | mem
    · exact atHead
    · exact atTail child mem

theorem ownedPath_eq_self_iff {isRoot : Bool} {name : String} {path : List String}
    {file : ModuleSource} :
    ownedPath isRoot name path file = path ↔ foldsInto isRoot name file = true := by
  rw [ownedPath]
  split <;> simp [*]

/-- Whatever lies in or below a directory owns a path that begins with the directory's. -/
theorem prefix_of_mem_ownedPaths {isRoot : Bool} {path owned : List String}
    {source : DirectorySource} (mem : owned ∈ source.ownedPaths isRoot path) : path <+: owned := by
  induction source using DirectorySource.induction generalizing isRoot path with
  | step source ih =>
    rw [ownedPaths_eq] at mem
    rcases List.mem_append.mp mem with mem | mem
    · obtain ⟨file, -, rfl⟩ := List.mem_map.mp mem
      rw [ownedPath]
      split
      · exact List.prefix_rfl
      · exact List.prefix_append _ _
    · obtain ⟨child, hc, mem⟩ := List.mem_flatMap.mp mem
      exact (List.prefix_append _ _).trans (ih child hc mem)

/-- Nothing in or below a sub-directory owns the path of the directory. -/
theorem ne_of_mem_ownedPaths {isRoot : Bool} {path owned : List String} {name : String}
    {source : DirectorySource} (mem : owned ∈ source.ownedPaths isRoot (path ++ [name])) :
    owned ≠ path := by
  rintro rfl
  have longer := (prefix_of_mem_ownedPaths mem).length_le
  rw [List.length_append, List.length_singleton] at longer
  exact absurd longer (Nat.not_succ_le_self _)

/-- The path of a directory is owned exactly if a file folds it. -/
theorem mem_ownedPaths_self_iff {path : List String} {source : DirectorySource} :
    path ∈ source.ownedPaths false path ↔ source.isFolded = true := by
  have below : ∀ child ∈ source.directories,
      path ∉ child.ownedPaths false (path ++ [child.name]) :=
    fun child _ mem => ne_of_mem_ownedPaths mem rfl
  rw [ownedPaths_eq, List.mem_append, List.mem_map, List.mem_flatMap, isFolded, List.any_eq_true]
  simp only [ownedPath_eq_self_iff, foldsInto, Bool.not_false, Bool.true_and, decide_eq_true_eq]
  refine or_iff_left ?_
  rintro ⟨child, hc, mem⟩
  exact below child hc mem

/-- The files of one directory own different paths if at most one of them folds it and the others
have different names. -/
theorem nodup_map_ownedPath_iff {isRoot : Bool} {name : String} {path : List String} :
    ∀ files : List ModuleSource, (files.map (ownedPath isRoot name path)).Nodup ↔
      (files.filter (foldsInto isRoot name)).length ≤ 1 ∧
        ((files.filter (!foldsInto isRoot name ·)).map (·.name)).Nodup
  | [] => by simp
  | file :: rest => by
    rw [List.map_cons, List.nodup_cons, nodup_map_ownedPath_iff rest]
    cases folds : foldsInto isRoot name file with
    | true =>
      have owned : ownedPath isRoot name path file = path := ownedPath_eq_self_iff.mpr folds
      have alone : path ∉ rest.map (ownedPath isRoot name path) ↔
          (rest.filter (foldsInto isRoot name)).length = 0 := by
        simp [ownedPath_eq_self_iff, List.filter_eq_nil_iff]
      rw [owned, alone, List.filter_cons_of_pos folds, List.filter_cons_of_neg (by simp [folds]),
        List.length_cons, ← and_assoc]
      exact and_congr_left fun _ => by omega
    | false =>
      have fresh : ownedPath isRoot name path file ∉ rest.map (ownedPath isRoot name path) ↔
          file.name ∉ (rest.filter (!foldsInto isRoot name ·)).map (·.name) := by
        simp only [List.mem_map, List.mem_filter, ownedPath, folds]
        refine not_congr (exists_congr fun other => ?_)
        cases foldsInto isRoot name other <;> simp
      rw [fresh, List.filter_cons_of_neg (by simp [folds]),
        List.filter_cons_of_pos (by simp [folds]), List.map_cons, List.nodup_cons]
      tauto

/-- Sub-directories of different names share no owned path. -/
theorem disjoint_ownedPaths {path : List String} {a b : DirectorySource}
    (differ : a.name ≠ b.name) :
    (a.ownedPaths false (path ++ [a.name])).Disjoint (b.ownedPaths false (path ++ [b.name])) := by
  intro owned ha hb
  have same := List.prefix_of_prefix_length_le (prefix_of_mem_ownedPaths ha)
    (prefix_of_mem_ownedPaths hb) (by simp)
  refine differ ?_
  simpa using same.eq_of_length (by simp)

/-- A file and what lies in a sub-directory own different paths, unless the sub-directory is folded
and named like the file. -/
theorem disjoint_files_iff {isRoot : Bool} {path : List String} {source : DirectorySource} :
    ((source.files.map (ownedPath isRoot source.name path)).Disjoint
      (source.directories.flatMap fun child => child.ownedPaths false (path ++ [child.name]))) ↔
        ∀ child ∈ source.directories, child.isFolded = true →
          child.name ∉ (source.plainFiles isRoot).map (·.name) := by
  constructor
  · intro disjoint child hc folded beside
    obtain ⟨file, hf, named⟩ := List.mem_map.mp beside
    obtain ⟨hf, plain⟩ := List.mem_filter.mp hf
    have owned : ownedPath isRoot source.name path file = path ++ [child.name] := by
      rw [ownedPath, if_neg (by simpa using plain), named]
    refine disjoint (List.mem_map.mpr ⟨file, hf, owned⟩) (List.mem_flatMap.mpr ⟨child, hc, ?_⟩)
    exact mem_ownedPaths_self_iff.mpr folded
  · intro apart owned mine its
    obtain ⟨file, hf, rfl⟩ := List.mem_map.mp mine
    obtain ⟨child, hc, below⟩ := List.mem_flatMap.mp its
    have plain : foldsInto isRoot source.name file ≠ true :=
      mt ownedPath_eq_self_iff.mpr (ne_of_mem_ownedPaths below)
    rw [ownedPath, if_neg plain] at below
    have same := (prefix_of_mem_ownedPaths below).eq_of_length (by simp)
    rw [← same] at below
    refine apart child hc (mem_ownedPaths_self_iff.mp below) (List.mem_map.mpr ⟨file, ?_, ?_⟩)
    · exact List.mem_filter.mpr ⟨hf, by simpa using plain⟩
    · simpa using same.symm

/-- A root is unambiguous if what lies side by side is told apart, in it and in every directory
below. -/
theorem unambiguous_iff {isRoot : Bool} {path : List String} {source : DirectorySource} :
    source.Unambiguous isRoot path ↔ source.Clear isRoot ∧
      ∀ child ∈ source.directories, child.Unambiguous false (path ++ [child.name]) := by
  have split : (source.ownedPaths isRoot path).Nodup ↔
      ((source.files.filter (foldsInto isRoot source.name)).length ≤ 1 ∧
        ((source.plainFiles isRoot).map (·.name)).Nodup) ∧
      (source.directories.flatMap fun child =>
        child.ownedPaths false (path ++ [child.name])).Nodup ∧
      ∀ child ∈ source.directories, child.isFolded = true →
        child.name ∉ (source.plainFiles isRoot).map (·.name) := by
    rw [ownedPaths_eq, List.nodup_append', nodup_map_ownedPath_iff, disjoint_files_iff, plainFiles]
  constructor
  · rintro ⟨directories, files⟩
    rw [subtree_eq, List.forall_mem_cons] at directories
    obtain ⟨⟨fold, plain⟩, below, apart⟩ := split.mp files
    refine ⟨⟨fold, plain, directories.1, apart⟩, fun child hc => ⟨fun d hd => ?_, ?_⟩⟩
    · exact directories.2 d (List.mem_flatMap.mpr ⟨child, hc, hd⟩)
    · exact (List.nodup_flatMap.mp below).1 child hc
  · rintro ⟨clear, below⟩
    refine ⟨?_, split.mpr ⟨⟨clear.fold, clear.files⟩, List.nodup_flatMap.mpr ⟨?_, ?_⟩, clear.apart⟩⟩
    · rw [subtree_eq, List.forall_mem_cons]
      refine ⟨clear.directories, fun d hd => ?_⟩
      obtain ⟨child, hc, hd⟩ := List.mem_flatMap.mp hd
      exact (below child hc).directories d hd
    · exact fun child hc => (below child hc).files
    · exact (List.pairwise_map.mp clear.directories).imp disjoint_ownedPaths

/-- The check finds no conflict exactly in unambiguous roots. -/
theorem conflicts_eq_nil_iff_unambiguous {isRoot : Bool} {path : List String}
    {source : DirectorySource} :
    conflicts isRoot path source = [] ↔ source.Unambiguous isRoot path := by
  induction source using DirectorySource.induction generalizing isRoot path with
  | step source ih =>
    rw [conflicts_eq_nil_iff, unambiguous_iff]
    exact and_congr_right fun _ => forall₂_congr fun child hc => ih child hc

/-- A folded directory may hold another of its own name, but lies beside no file of that name. -/
example :
    let list : ModuleSource := ⟨"List", none, [], []⟩
    let folded : DirectorySource := ⟨"List", [list], [⟨"List", [list], []⟩]⟩
    conflicts true [] ⟨"src", [], [folded]⟩ = [] ∧ conflicts true [] ⟨"src", [list], [folded]⟩ ≠ []
    := by decide +kernel

end DirectorySource

/-- Whatever packages were offered before, a further one is taken if and only if its name is free
and each of its roots is unambiguous. -/
theorem Growth.takes_iff_unambiguous (sources : List PackageSource) (source : PackageSource) :
    let growth := sources.foldl Growth.add .empty
    (growth.added? source).isSome ↔
      source.name ∉ growth.tree.packages.map (·.name) ∧
        ∀ root ∈ source.roots, root.Unambiguous true [] := by
  intro growth
  have taken : (growth.added? source).isSome ↔ growth.tree.refusals source = [] := by
    rw [added?, ← List.isEmpty_iff]
    split <;> simp [*]
  rw [taken, ModuleTree.refusals_eq_nil_iff, PackageSource.conflicts, List.flatMap_eq_nil_iff]
  exact and_congr_right fun _ => forall₂_congr fun root _ =>
    DirectorySource.conflicts_eq_nil_iff_unambiguous

end LetModules
