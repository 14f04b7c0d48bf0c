import LetModules.Proofs.Tree.Atomicity
import LetModules.Proofs.Tree.Profile

/-!
The files behind a tree. The modules of a grown tree are the files of the accepted packages, in
order (`map_contents_modules`); and of the problems met while it grew, only those of repeated
declarations have a place, which is in one of these files (`exists_redeclared`).
-/

namespace LetModules

/-- What a module has from its file, and the path that the file owns. -/
structure Contents where
  name : String
  path : List String
  file : Option FileId
  imports : List ImportStatement
  headers : List DeclarationHeader

/-- What a module has from its file. -/
def Module.contents (m : Module) : Contents := ⟨m.name, m.path, m.file, m.imports, m.headers⟩

/-- What a file gives to a module with the path `path`. -/
def ModuleSource.contents (file : ModuleSource) (path : List String) : Contents :=
  ⟨file.name, path, file.file, file.imports, file.kept⟩

def Profile.contents (x : Profile) : Contents :=
  ⟨x.ownName, x.name.path, x.file, x.imports, x.headers⟩

namespace DirectorySource

variable (package : String) (root : Root)

mutual

/-- The profiles in and below a directory are those of its files. -/
theorem map_contents_profiles (isRoot : Bool) (path : List String) : ∀ source : DirectorySource,
    (source.profiles package root isRoot path).map (·.contents) =
      (source.ownedFiles isRoot path).map fun (file, path) => file.contents path
  | ⟨name, files, directories⟩ => by
    rw [profiles, ownedFiles, List.map_append, List.map_append,
      map_contents_childProfiles path directories, List.map_map, List.map_map]
    rfl

theorem map_contents_childProfiles (path : List String) : ∀ sources : List DirectorySource,
    (childProfiles package root path sources).map (·.contents) =
      (childOwnedFiles path sources).map fun (file, path) => file.contents path
  | [] => rfl
  | child :: rest => by
    rw [childProfiles, childOwnedFiles, List.map_append, List.map_append,
      map_contents_profiles false (path ++ [child.name]) child,
      map_contents_childProfiles path rest]

end

end DirectorySource

/-- The profiles of a package are those of its files. -/
theorem PackageSource.map_contents_profile (source : PackageSource) :
    source.profile.modules.map (·.contents) =
      source.ownedFiles.map fun (file, path) => file.contents path := by
  rw [profile, ownedFiles, roots, List.flatMap_cons, List.map_append, List.map_append,
    DirectorySource.map_contents_profiles, List.map_flatMap, List.map_flatMap]
  simp only [DirectorySource.map_contents_profiles]

namespace Growth

/-- The modules of a tree are the files of the accepted packages, in order. -/
theorem map_contents_modules (sources : List PackageSource) :
    (ofSources sources).tree.modules.map (·.contents) =
      ((accepted [] sources).flatMap (·.ownedFiles)).map fun (file, path) =>
        file.contents path := by
  have profiles := (sound_ofSources sources).map_profileOf
  rw [map_profile_ofSources, List.flatMap_map] at profiles
  have contents := congrArg (List.map (·.contents)) profiles
  rw [List.map_map, List.map_flatMap] at contents
  rw [List.map_flatMap]
  simp only [PackageSource.map_contents_profile] at contents
  exact contents

/-- Behind each module stands a file. -/
theorem exists_file {sources : List PackageSource} {m : Module}
    (mem : m ∈ (ofSources sources).tree.modules) : ∃ source ∈ sources,
      ∃ entry ∈ source.ownedFiles, entry.1.contents entry.2 = m.contents := by
  have there := List.mem_map_of_mem (f := Module.contents) mem
  rw [map_contents_modules] at there
  obtain ⟨entry, listed, same⟩ := List.mem_map.mp there
  obtain ⟨source, taken, listed⟩ := List.mem_flatMap.mp listed
  exact ⟨source, (accepted_sublist [] sources).subset taken, entry, listed, same⟩

/-- Of the problems of adding packages, only repeated declarations have a place. -/
theorem mem_redeclarations_of_mem_foldl {problem : Problem} (placed : problem.span ≠ none) :
    ∀ (sources : List PackageSource) (growth : Growth),
      problem ∈ (sources.foldl add growth).problems → problem ∈ growth.problems ∨
        ∃ source ∈ accepted (growth.tree.packages.map (·.name)) sources,
          problem ∈ source.redeclarations := by
  intro sources
  induction sources with
  | nil => exact fun _ => .inl
  | cons source rest ih =>
    intro growth mem
    rw [accepted]
    cases refused : growth.tree.refusals source with
    | nil =>
      have grown : growth.add source =
          ⟨growth.tree.append source, growth.problems ++ source.redeclarations⟩ := by
        rw [add, refused]
      have names : (growth.add source).tree.packages.map (·.name) =
          growth.tree.packages.map (·.name) ++ [source.name] := by
        simp [grown, ModuleTree.append, PackageSource.place]
      rw [if_pos ((growth.tree.refusals_eq_nil_iff source).mp refused)]
      rcases ih _ mem with before | ⟨later, taken, repeated⟩
      · rw [grown] at before
        rcases List.mem_append.mp before with before | here
        · exact .inl before
        · exact .inr ⟨source, List.mem_cons_self, here⟩
      · rw [names] at taken
        exact .inr ⟨later, List.mem_cons_of_mem _ taken, repeated⟩
    | cons refusal refusals =>
      have kept : growth.add source =
          { growth with problems := growth.problems ++ refusal :: refusals } := by
        rw [add, refused]
      have out : ¬ (source.name ∉ growth.tree.packages.map (·.name) ∧ source.conflicts = []) := by
        rw [← growth.tree.refusals_eq_nil_iff, refused]
        exact List.cons_ne_nil _ _
      rw [if_neg out]
      rcases ih _ mem with before | ⟨later, taken, repeated⟩
      · rw [kept] at before
        rcases List.mem_append.mp before with before | here
        · exact .inl before
        · exact absurd (ModuleTree.refusing_of_mem_refusals (refused ▸ here)).unplaced placed
      · rw [kept] at taken
        exact .inr ⟨later, taken, repeated⟩

/-- What is reported with a place while a tree grows is that a file behind one of its modules
repeats a declaration. -/
theorem exists_redeclared {sources : List PackageSource} {problem : Problem}
    (mem : problem ∈ (ofSources sources).problems) (placed : problem.span ≠ none) :
    ∃ m ∈ (ofSources sources).tree.modules, ∃ source ∈ sources, ∃ entry ∈ source.ownedFiles,
      entry.1.contents entry.2 = m.contents ∧ ∃ header ∈ entry.1.repetitions,
        problem = entry.1.redeclared entry.2 header := by
  rcases List.mem_append.mp mem with mem | mem
  · obtain absent | ⟨source, taken, repeated⟩ :=
      mem_redeclarations_of_mem_foldl placed sources empty mem
    · exact absurd absent List.not_mem_nil
    rw [PackageSource.redeclarations_eq] at repeated
    obtain ⟨entry, listed, repeated⟩ := List.mem_flatMap.mp repeated
    obtain ⟨header, again, rfl⟩ := List.mem_map.mp repeated
    have there : entry.1.contents entry.2 ∈ (ofSources sources).tree.modules.map (·.contents) := by
      rw [map_contents_modules]
      exact List.mem_map_of_mem (f := fun entry : ModuleSource × List String =>
        entry.1.contents entry.2) (List.mem_flatMap.mpr ⟨source, taken, listed⟩)
    obtain ⟨m, hm, same⟩ := List.mem_map.mp there
    exact ⟨m, hm, source, (accepted_sublist [] sources).subset taken, entry, listed, same.symm,
      header, again, rfl⟩
  · obtain ⟨package, -, mem⟩ := List.mem_flatMap.mp mem
    obtain ⟨name, -, rfl⟩ := List.mem_map.mp mem
    exact absurd rfl placed

end Growth

end LetModules
