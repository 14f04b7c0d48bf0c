import LetModules.Proofs.Tree.Clash

/-!
Filing: files are put one by one into the directories that they lie in, and a directory is made when
it is first needed. Each step adds one file and keeps all others where they are
(`located_fileAway_perm`), so a run of steps holds each file of the run once
(`located_fileAll_perm`). A run through a new folder makes one new directory (`fileAll_under`).
-/

namespace LetModules.DirectorySource

/-- The directories with the first of a name changed, or else with a new one of that name. -/
def updateNamed (name : String) (change : DirectorySource → DirectorySource) :
    List DirectorySource → List DirectorySource
  | [] => [change ⟨name, [], []⟩]
  | child :: rest =>
    if child.name = name then change child :: rest else child :: updateNamed name change rest

/-- The directory with a file put where the names lead. -/
def fileAway (file : ModuleSource) : List String → DirectorySource → DirectorySource
  | [], source => { source with files := source.files ++ [file] }
  | name :: names, source =>
    { source with directories := updateNamed name (fileAway file names) source.directories }

/-- The directory with files put where their names lead, one after the other. -/
def fileAll (walk : List (List String × ModuleSource)) (source : DirectorySource) :
    DirectorySource :=
  walk.foldl (fun source located => source.fileAway located.2 located.1) source

/-- Where a file lies as seen from further up. -/
def under (names : List String) (located : List String × ModuleSource) :
    List String × ModuleSource :=
  (names ++ located.1, located.2)

theorem map_under_nil (walk : List (List String × ModuleSource)) : walk.map (under []) = walk :=
  List.map_id walk

theorem map_under_under (outer names : List String) (walk : List (List String × ModuleSource)) :
    (walk.map (under names)).map (under outer) = walk.map (under (outer ++ names)) := by
  simp [under, Function.comp_def]

theorem fileAll_append (walk later : List (List String × ModuleSource)) (source : DirectorySource) :
    source.fileAll (walk ++ later) = (source.fileAll walk).fileAll later :=
  List.foldl_append

@[simp] theorem name_fileAway (file : ModuleSource) (path : List String)
    (source : DirectorySource) : (source.fileAway file path).name = source.name := by
  cases path <;> rfl

theorem located_updateNamed_perm {base path : List String} {name : String} {file : ModuleSource}
    (step : ∀ source : DirectorySource, ((source.fileAway file path).located (base ++ [name])).Perm
      ((base ++ [name] ++ path, file) :: source.located (base ++ [name])))
    (directories : List DirectorySource) :
    (locatedAll base (updateNamed name (fileAway file path) directories)).Perm
      ((base ++ [name] ++ path, file) :: locatedAll base directories) := by
  induction directories with
  | nil =>
    have made := step ⟨name, [], []⟩
    simpa [updateNamed, locatedAll, located] using made
  | cons child rest ih =>
    rw [updateNamed]
    split
    · rename_i same
      rw [locatedAll, locatedAll, name_fileAway, same]
      exact (step child).append_right _
    · rw [locatedAll, locatedAll]
      exact (ih.append_left _).trans List.perm_middle

/-- Putting a file somewhere adds it there, and keeps what lies elsewhere. -/
theorem located_fileAway_perm (file : ModuleSource) (path : List String) :
    ∀ (base : List String) (source : DirectorySource),
      ((source.fileAway file path).located base).Perm
        ((base ++ path, file) :: source.located base) := by
  induction path with
  | nil =>
    intro base source
    rw [fileAway, located_eq, located_eq, List.append_nil, List.map_append, List.append_assoc]
    exact List.perm_middle
  | cons name path ih =>
    intro base source
    have below := located_updateNamed_perm (ih (base ++ [name])) source.directories
    rw [List.append_assoc, List.singleton_append] at below
    rw [fileAway, located_eq, located_eq, ← locatedAll_eq_flatMap, ← locatedAll_eq_flatMap]
    exact (below.append_left _).trans List.perm_middle

/-- After a run of steps all files of the run are there, beside what was there before. -/
theorem located_fileAll_perm (walk : List (List String × ModuleSource)) :
    ∀ source : DirectorySource,
      ((source.fileAll walk).located []).Perm (walk ++ source.located []) := by
  induction walk with
  | nil => exact fun source => .refl _
  | cons first rest ih =>
    intro source
    have step := located_fileAway_perm first.2 first.1 [] source
    exact (ih _).trans ((step.append_left rest).trans List.perm_middle)

theorem updateNamed_append {name : String} {before : List DirectorySource}
    (fresh : name ∉ before.map (·.name)) (change : DirectorySource → DirectorySource)
    (after : List DirectorySource) :
    updateNamed name change (before ++ after) = before ++ updateNamed name change after := by
  induction before with
  | nil => rfl
  | cons child rest ih =>
    rw [List.map_cons, List.mem_cons, not_or] at fresh
    rw [List.cons_append, updateNamed, if_neg (Ne.symm fresh.1), ih fresh.2, List.cons_append]

section Runs

variable {directory name : String} {files : List ModuleSource} {before : List DirectorySource}

/-- Files that lie in the last sub-directory are filed there. -/
theorem fileAll_under_last {child : DirectorySource} (fresh : child.name ∉ before.map (·.name))
    (walk : List (List String × ModuleSource)) :
    fileAll (walk.map (under [child.name])) ⟨directory, files, before ++ [child]⟩ =
      ⟨directory, files, before ++ [child.fileAll walk]⟩ := by
  induction walk generalizing child with
  | nil => rfl
  | cons first rest ih =>
    have step : fileAway first.2 (child.name :: first.1) ⟨directory, files, before ++ [child]⟩ =
        ⟨directory, files, before ++ [child.fileAway first.2 first.1]⟩ := by
      simp [fileAway, updateNamed_append fresh, updateNamed]
    have later := @ih (child.fileAway first.2 first.1) (by rwa [name_fileAway])
    rw [name_fileAway] at later
    calc fileAll ((first :: rest).map (under [child.name])) ⟨directory, files, before ++ [child]⟩
      _ = fileAll (rest.map (under [child.name]))
            (fileAway first.2 (child.name :: first.1) ⟨directory, files, before ++ [child]⟩) := rfl
      _ = ⟨directory, files, before ++ [child.fileAll (first :: rest)]⟩ := by
        rw [step, later]
        rfl

/-- Files that lie in a new sub-directory make it, unless there are none. -/
theorem fileAll_under (fresh : name ∉ before.map (·.name))
    {walk : List (List String × ModuleSource)} (nonempty : walk ≠ []) :
    fileAll (walk.map (under [name])) ⟨directory, files, before⟩ =
      ⟨directory, files, before ++ [fileAll walk ⟨name, [], []⟩]⟩ := by
  cases walk with
  | nil => exact absurd rfl nonempty
  | cons first rest =>
    have step : fileAway first.2 (name :: first.1) ⟨directory, files, before⟩ =
        ⟨directory, files, before ++ [fileAway first.2 first.1 ⟨name, [], []⟩]⟩ := by
      have made := updateNamed_append fresh (fileAway first.2 first.1) []
      rw [List.append_nil, updateNamed] at made
      rw [fileAway, made]
    have later := @fileAll_under_last directory files before
      (fileAway first.2 first.1 ⟨name, [], []⟩) (by rwa [name_fileAway]) rest
    rw [name_fileAway] at later
    calc fileAll ((first :: rest).map (under [name])) ⟨directory, files, before⟩
      _ = fileAll (rest.map (under [name]))
            (fileAway first.2 (name :: first.1) ⟨directory, files, before⟩) := rfl
      _ = ⟨directory, files, before ++ [fileAll (first :: rest) ⟨name, [], []⟩]⟩ := by
        rw [step, later]
        rfl

end Runs

end LetModules.DirectorySource
