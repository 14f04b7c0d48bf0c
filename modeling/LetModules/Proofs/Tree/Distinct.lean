import LetModules.Proofs.Tree.Placement

/-!
Layouts without conflict. A directory source has none if, in it and in every directory below, at
most one file folds the directory, no two other files have one name, no two sub-directories have one
name, and no folded sub-directory is named like a file beside it. Placing such a source yields
directories in which a name says which module or child is meant (`Directory.Distinct`).
-/

namespace LetModules

theorem repeatsBy_eq_nil_iff (key : α → String) : ∀ (seen : List String) (entries : List α),
    repeatsBy key seen entries = [] ↔
      (entries.map key).Nodup ∧ ∀ a ∈ entries, key a ∉ seen
  | _, [] => by simp [repeatsBy]
  | seen, a :: rest => by
    rw [repeatsBy, List.map_cons, List.nodup_cons, List.forall_mem_cons]
    split
    · rename_i old
      simp [old]
    · rename_i new
      rw [repeatsBy_eq_nil_iff key (key a :: seen) rest]
      simp only [List.mem_cons, not_or, List.mem_map, not_exists, not_and]
      constructor
      · rintro ⟨distinct, unseen⟩
        exact ⟨⟨fun b hb => (unseen b hb).1, distinct⟩, new, fun b hb => (unseen b hb).2⟩
      · rintro ⟨⟨fresh, distinct⟩, -, unseen⟩
        exact ⟨distinct, fun b hb => ⟨fresh b hb, unseen b hb⟩⟩

namespace DirectorySource

/-- The files of a directory that do not fold it. -/
def plainFiles (isRoot : Bool) (source : DirectorySource) : List ModuleSource :=
  source.files.filter (!foldsInto isRoot source.name ·)

/-- A directory in which names do not clash; those below it are not looked at. -/
structure Clear (isRoot : Bool) (source : DirectorySource) : Prop where
  fold : (source.files.filter (foldsInto isRoot source.name)).length ≤ 1
  files : ((source.plainFiles isRoot).map (·.name)).Nodup
  directories : (source.directories.map (·.name)).Nodup
  apart : ∀ child ∈ source.directories, child.isFolded = true →
    child.name ∉ (source.plainFiles isRoot).map (·.name)

theorem foldConflicts_eq_nil_iff (path : List String) (folding : List ModuleSource) :
    foldConflicts path folding = [] ↔ folding.length ≤ 1 := by
  match folding with
  | [] => simp [foldConflicts]
  | [_] => simp [foldConflicts]
  | _ :: _ :: _ => simp [foldConflicts]

theorem childConflicts_eq_nil_iff (path plain : List String) :
    ∀ (seen : List String) (directories : List DirectorySource),
      childConflicts path plain seen directories = [] ↔
        ((directories.map (·.name)).Nodup ∧ ∀ child ∈ directories, child.name ∉ seen) ∧
          (∀ child ∈ directories, child.isFolded = true → child.name ∉ plain) ∧
            ∀ child ∈ directories, conflicts false (path ++ [child.name]) child = []
  | _, [] => by simp [childConflicts]
  | seen, child :: rest => by
    have clash : (if seen.contains child.name || (child.isFolded && plain.contains child.name) then
        [Problem.of (.duplicateModule (Text.joined (path ++ [child.name])))] else []) = [] ↔
        child.name ∉ seen ∧ (child.isFolded = true → child.name ∉ plain) := by
      simp
    rw [childConflicts, List.append_eq_nil_iff, List.append_eq_nil_iff, clash,
      childConflicts_eq_nil_iff path plain (child.name :: seen) rest, List.map_cons,
      List.nodup_cons]
    simp only [List.mem_cons, not_or, or_imp, forall_and, forall_eq, List.mem_map, not_exists,
      not_and]
    tauto

/-- A directory has no conflicts if it and all below it are clear. -/
theorem conflicts_eq_nil_iff (isRoot : Bool) (path : List String) (source : DirectorySource) :
    conflicts isRoot path source = [] ↔ source.Clear isRoot ∧
      ∀ child ∈ source.directories, conflicts false (path ++ [child.name]) child = [] := by
  obtain ⟨name, files, directories⟩ := source
  rw [conflicts]
  dsimp only
  rw [List.append_eq_nil_iff, List.append_eq_nil_iff, foldConflicts_eq_nil_iff, fileConflicts,
    List.map_eq_nil_iff, repeatsBy_eq_nil_iff, childConflicts_eq_nil_iff]
  constructor
  · rintro ⟨⟨fold, files, -⟩, ⟨directories, -⟩, apart, below⟩
    exact ⟨⟨fold, files, directories, apart⟩, below⟩
  · rintro ⟨⟨fold, files, directories, apart⟩, below⟩
    exact ⟨⟨fold, files, by simp⟩, ⟨directories, by simp⟩, apart, below⟩

end DirectorySource

/-- Names tell the modules and children of a directory apart. -/
structure Directory.Distinct (d : Directory) : Prop where
  fold : (d.modules.filter (·.folds)).length ≤ 1
  plain : (d.plain.map (·.name)).Nodup
  children : (d.children.map (·.name)).Nodup
  apart : ∀ child ∈ d.children, ∀ m ∈ child.modules, m.folds = true →
    child.name ∉ d.plain.map (·.name)

namespace DirectorySource

variable (grounds : Grounds)

/-- What the place of a file does not matter for can be read off the files of a directory. -/
theorem map_placeFiles (isRoot : Bool) (name : String) (directory : DirectoryId)
    (path : List String) {f : Module → β} {g : ModuleSource → β}
    (same : ∀ file next, f (ModuleSource.place grounds directory (ownedPath isRoot name path file)
      (foldsInto isRoot name file) next file) = g file) :
    ∀ (files : List ModuleSource) (next : NextIds),
      (placeFiles grounds isRoot name directory path next files).1.map f = files.map g
  | [], _ => rfl
  | file :: rest, next => by
    rw [placeFiles, List.map_cons, List.map_cons, same,
      map_placeFiles isRoot name directory path same rest]

/-- The same for the sub-directories of a directory. -/
theorem map_placeChildren (parent : DirectoryId) (path : List String) {f : Directory → β}
    {g : DirectorySource → β}
    (same : ∀ source next, f (place grounds (some parent) (path ++ [source.name]) next source).1 =
      g source) :
    ∀ (sources : List DirectorySource) (next : NextIds),
      (placeChildren grounds parent path next sources).1.map f = sources.map g
  | [], _ => rfl
  | source :: rest, next => by
    rw [placeChildren, List.map_cons, List.map_cons, same,
      map_placeChildren parent path same rest]

/-- The name of each module of a placed directory, and whether it folds the directory. -/
theorem names_place (parent : Option DirectoryId) (path : List String) (next : NextIds)
    (source : DirectorySource) :
    (place grounds parent path next source).1.modules.map (fun m => (m.name, m.folds)) =
      source.files.map fun file => (file.name, foldsInto parent.isNone source.name file) := by
  cases source
  rw [place]
  exact map_placeFiles grounds _ _ _ _ (fun _ _ => rfl) _ _

theorem childNames_place (parent : Option DirectoryId) (path : List String) (next : NextIds)
    (source : DirectorySource) :
    (place grounds parent path next source).1.children.map (·.name) =
      source.directories.map (·.name) := by
  cases source
  rw [place]
  exact map_placeChildren grounds _ _ (fun source _ => (place_fields ..).2.1) _ _

theorem plainNames_place (parent : Option DirectoryId) (path : List String) (next : NextIds)
    (source : DirectorySource) :
    (place grounds parent path next source).1.plain.map (·.name) =
      (source.plainFiles parent.isNone).map (·.name) := by
  have names := congrArg (fun l => (l.filter (!·.2)).map (·.1))
    (names_place grounds parent path next source)
  simpa [List.filter_map, Function.comp_def, Directory.plain, plainFiles] using names

theorem length_folding_place (parent : Option DirectoryId) (path : List String) (next : NextIds)
    (source : DirectorySource) :
    ((place grounds parent path next source).1.modules.filter (·.folds)).length =
      (source.files.filter (foldsInto parent.isNone source.name)).length := by
  have folding := congrArg (fun l => (l.filter (·.2)).length)
    (names_place grounds parent path next source)
  simpa [List.filter_map, Function.comp_def] using folding

/-- A placed sub-directory is folded only if its source is. -/
theorem isFolded_of_folds {parent : DirectoryId} {path : List String} {next : NextIds}
    {source : DirectorySource} {m : Module}
    (mem : m ∈ (place grounds (some parent) path next source).1.modules)
    (folds : m.folds = true) : source.isFolded = true := by
  have known : (m.name, m.folds) ∈ source.files.map
      fun file => (file.name, foldsInto false source.name file) := by
    rw [← Option.isNone_some (a := parent), ← names_place grounds (some parent) path next]
    exact List.mem_map_of_mem mem
  obtain ⟨file, hf, same⟩ := List.mem_map.mp known
  have named : foldsInto false source.name file = true :=
    (congrArg Prod.snd same).trans folds
  exact List.any_eq_true.mpr ⟨file, hf, by simpa [foldsInto] using named⟩

/-- In a placed source that is clear, names tell modules and children apart. -/
theorem distinct_place {parent : Option DirectoryId} {path : List String} {next : NextIds}
    {source : DirectorySource} (clear : source.Clear parent.isNone) :
    (place grounds parent path next source).1.Distinct where
  fold := length_folding_place grounds parent path next source ▸ clear.fold
  plain := plainNames_place grounds parent path next source ▸ clear.files
  children := childNames_place grounds parent path next source ▸ clear.directories
  apart := by
    intro child hc m hm folds
    rw [plainNames_place]
    have hc' := hc
    obtain ⟨name, files, directories⟩ := source
    rw [place] at hc'
    obtain ⟨childSource, hs, next', rfl⟩ := mem_placeChildren grounds _ _ directories _ hc'
    rw [(place_fields ..).2.1]
    exact clear.apart childSource hs (isFolded_of_folds grounds hm folds)

/-- If a source has no conflicts, names tell apart what lies in each of its placed directories. -/
theorem distinct_of_conflicts_eq_nil {parent : Option DirectoryId} {path : List String}
    {next : NextIds} {source : DirectorySource} (free : conflicts parent.isNone path source = []) :
    ∀ d ∈ (place grounds parent path next source).1.subtree, d.Distinct := by
  refine forall_mem_subtree_place grounds Directory.Distinct
    (fun isRoot source => ∃ path, conflicts isRoot path source = []) ?_ ?_ _ parent path next
    source rfl ⟨path, free⟩
  · rintro parent path next source ⟨_, free⟩
    exact distinct_place grounds ((conflicts_eq_nil_iff ..).mp free).1
  · rintro isRoot source ⟨path, free⟩ child hc
    exact ⟨_, ((conflicts_eq_nil_iff ..).mp free).2 child hc⟩

/-- All directories below a placed one are shaped. -/
theorem shaped_of_mem_place {parent : Option DirectoryId} {path : List String} {next : NextIds}
    {source : DirectorySource} :
    ∀ d ∈ (place grounds parent path next source).1.subtree, d.Shaped :=
  forall_mem_subtree_place grounds Directory.Shaped (fun _ _ => True)
    (fun parent path next source _ => shaped_place grounds parent path next source)
    (fun _ _ _ _ _ => trivial) _ parent path next source rfl trivial

end DirectorySource

end LetModules
