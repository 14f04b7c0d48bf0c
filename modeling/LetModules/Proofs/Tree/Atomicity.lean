import LetModules.Proofs.Tree.Ambiguity

/-!
Growing a tree is atomic. A package that is refused leaves the tree as it was, and all that is
reported about it is fatal; one that is taken leaves all that was there in its place, and what is
reported are the declarations that repeat a name within a file (`add_atomic`). So refused packages
make no difference: a list of packages grows the tree of those that are taken, and something fatal
is reported exactly if one of them is refused.
-/

namespace LetModules

/-- The repeated entries are those whose key is that of an earlier entry. -/
theorem repeatsBy_eq_filter (key : α → String) (before entries : List α) (seen : List String)
    (known : ∀ k, k ∈ seen ↔ ∃ b ∈ before, key b = k) :
    repeatsBy key seen entries = ((entries.zipIdx before.length).filter fun (a, i) =>
      ((before ++ entries).take i).any (key · = key a)).map (·.1) := by
  induction entries generalizing before seen with
  | nil => rfl
  | cons a rest ih =>
    have later := ih (before ++ [a])
    rw [List.append_assoc, List.singleton_append, List.length_append, List.length_singleton]
      at later
    have old : ((before ++ a :: rest).take before.length).any (key · = key a) = true ↔
        key a ∈ seen := by
      simp [known]
    rw [repeatsBy, List.zipIdx_cons, List.filter_cons]
    split
    · rename_i again
      rw [if_pos (old.mpr again), List.map_cons, later seen]
      intro k
      rw [known]
      constructor
      · rintro ⟨b, mem, same⟩
        exact ⟨b, List.mem_append_left _ mem, same⟩
      · rintro ⟨b, mem, rfl⟩
        rcases List.mem_append.mp mem with mem | mem
        · exact ⟨b, mem, rfl⟩
        · exact List.mem_singleton.mp mem ▸ (known _).mp again
    · rename_i new
      rw [if_neg (mt old.mp new), later (key a :: seen)]
      intro k
      simp only [List.mem_cons, known, List.mem_append, List.not_mem_nil, or_false, or_and_right,
        exists_or, exists_eq_left]
      rw [or_comm, eq_comm]

namespace ModuleSource

/-- The declarations of a file that repeat the name of an earlier one. -/
def repetitions (file : ModuleSource) : List DeclarationHeader :=
  (file.declarations.zipIdx.filter fun (header, i) =>
    (file.declarations.take i).any (·.name = header.name)).map (·.1)

/-- What is reported about a declaration that repeats a name in the module with the path `path`. -/
def redeclared (file : ModuleSource) (path : List String) (header : DeclarationHeader) : Problem :=
  ⟨.duplicateDeclaration header.name (Text.joined path), header.span, file.file⟩

theorem redeclarations_eq (file : ModuleSource) (path : List String) :
    file.redeclarations path = file.repetitions.map (file.redeclared path) := by
  rw [redeclarations, repeatsBy_eq_filter (·.name) [] file.declarations [] (by simp)]
  rfl

end ModuleSource

/-- What a package is refused for: it is fatal, and no place within a file is to blame. -/
structure Problem.Refusing (problem : Problem) : Prop where
  fatal : problem.isFatal = true
  unplaced : problem.span = none

namespace DirectorySource

mutual

/-- The files in and below a directory with the path `path`, each with the path that it owns. -/
def ownedFiles (isRoot : Bool) (path : List String) :
    DirectorySource → List (ModuleSource × List String)
  | ⟨name, files, directories⟩ =>
    files.map (fun file => (file, ownedPath isRoot name path file)) ++
      childOwnedFiles path directories

/-- The files below the sub-directories of `path`, each with the path that it owns. -/
def childOwnedFiles (path : List String) : List DirectorySource → List (ModuleSource × List String)
  | [] => []
  | child :: rest => ownedFiles false (path ++ [child.name]) child ++ childOwnedFiles path rest

end

mutual

/-- The repeated declarations below a root are those of its files. -/
theorem redeclarations_eq (isRoot : Bool) (path : List String) : ∀ source : DirectorySource,
    source.redeclarations isRoot path = (source.ownedFiles isRoot path).flatMap fun (file, path) =>
      file.repetitions.map (file.redeclared path)
  | ⟨name, files, directories⟩ => by
    rw [redeclarations, ownedFiles, List.flatMap_append, List.flatMap_map,
      childRedeclarations_eq path directories]
    simp only [ModuleSource.redeclarations_eq]

theorem childRedeclarations_eq (path : List String) : ∀ sources : List DirectorySource,
    childRedeclarations path sources = (childOwnedFiles path sources).flatMap fun (file, path) =>
      file.repetitions.map (file.redeclared path)
  | [] => rfl
  | child :: rest => by
    rw [childRedeclarations, childOwnedFiles, List.flatMap_append,
      redeclarations_eq false (path ++ [child.name]) child, childRedeclarations_eq path rest]

end

mutual

/-- What a directory is refused for is fatal. -/
theorem refusing_of_mem_conflicts {isRoot : Bool} {path : List String} {problem : Problem} :
    ∀ source : DirectorySource, problem ∈ source.conflicts isRoot path → problem.Refusing
  | ⟨name, files, directories⟩, mem => by
    rw [conflicts] at mem
    rcases List.mem_append.mp mem with mem | mem
    · rcases List.mem_append.mp mem with mem | mem
      · unfold foldConflicts at mem
        split at mem
        · rw [List.mem_singleton.mp mem]
          exact ⟨rfl, rfl⟩
        · exact absurd mem List.not_mem_nil
      · obtain ⟨file, -, rfl⟩ := List.mem_map.mp mem
        exact ⟨rfl, rfl⟩
    · exact refusing_of_mem_childConflicts directories mem

theorem refusing_of_mem_childConflicts {path plain seen : List String} {problem : Problem} :
    ∀ sources : List DirectorySource, problem ∈ childConflicts path plain seen sources →
      problem.Refusing
  | [], mem => absurd mem List.not_mem_nil
  | child :: rest, mem => by
    rw [childConflicts] at mem
    rcases List.mem_append.mp mem with mem | mem
    · rcases List.mem_append.mp mem with mem | mem
      · split at mem
        · rw [List.mem_singleton.mp mem]
          exact ⟨rfl, rfl⟩
        · exact absurd mem List.not_mem_nil
      · exact refusing_of_mem_conflicts child mem
    · exact refusing_of_mem_childConflicts rest mem

end

end DirectorySource

namespace PackageSource

/-- The files of a package, each with the path that it owns. -/
def ownedFiles (source : PackageSource) : List (ModuleSource × List String) :=
  source.roots.flatMap (DirectorySource.ownedFiles true [])

/-- What is reported about a package that is taken: each declaration that repeats a name within its
file. -/
theorem redeclarations_eq (source : PackageSource) :
    source.redeclarations = source.ownedFiles.flatMap fun (file, path) =>
      file.repetitions.map (file.redeclared path) := by
  rw [redeclarations, ownedFiles, List.flatMap_assoc]
  exact List.flatMap_congr fun root _ => root.redeclarations_eq true []

theorem not_isFatal_of_mem_redeclarations {source : PackageSource} {problem : Problem}
    (mem : problem ∈ source.redeclarations) : problem.isFatal = false := by
  rw [redeclarations_eq] at mem
  obtain ⟨⟨file, path⟩, -, mem⟩ := List.mem_flatMap.mp mem
  obtain ⟨header, -, rfl⟩ := List.mem_map.mp mem
  rfl

end PackageSource

namespace ModuleTree

/-- The tree holds all that `before` held, in the same places and under the same names. -/
structure Extends (tree before : ModuleTree) : Prop where
  packages : before.packages <+: tree.packages
  directories : before.directories <+: tree.directories
  modules : before.modules <+: tree.modules
  declarations : before.declarations <+: tree.declarations
  names : ∀ name p, before.packageNamed? name = some p → tree.packageNamed? name = some p
  paths : ∀ package path m, before.production? package path = some m →
    tree.production? package path = some m

theorem extends_append (tree : ModuleTree) (source : PackageSource) :
    (tree.append source).Extends tree where
  packages := List.prefix_append _ _
  directories := List.prefix_append _ _
  modules := List.prefix_append _ _
  declarations := List.prefix_append _ _
  names := fun _ _ => (List.prefix_append _ _).find?_eq_some
  paths := fun _ _ _ => (List.prefix_append _ _).find?_eq_some

theorem refusing_of_mem_refusals {tree : ModuleTree} {source : PackageSource} {problem : Problem}
    (mem : problem ∈ tree.refusals source) : problem.Refusing := by
  rw [refusals] at mem
  split at mem
  · rw [List.mem_singleton.mp mem]
    exact ⟨rfl, rfl⟩
  · obtain ⟨root, -, mem⟩ := List.mem_flatMap.mp mem
    exact root.refusing_of_mem_conflicts mem

theorem not_isFatal_of_mem_unknownPackages {tree : ModuleTree} {problem : Problem}
    (mem : problem ∈ tree.unknownPackages) : problem.isFatal = false := by
  obtain ⟨package, -, mem⟩ := List.mem_flatMap.mp mem
  obtain ⟨name, -, rfl⟩ := List.mem_map.mp mem
  rfl

end ModuleTree

namespace Growth

/-- What refusing a package does: the tree stays as it is, and something fatal is reported. -/
structure Refuses (growth after : Growth) : Prop where
  tree : after.tree = growth.tree
  problems : ∃ refusals, after.problems = growth.problems ++ refusals ∧ refusals ≠ [] ∧
    ∀ problem ∈ refusals, problem.isFatal = true

/-- What taking a package under the id `id` does: it is appended to all that was there, and each
declaration that repeats a name within its file is reported. -/
structure Takes (growth : Growth) (source : PackageSource) (id : PackageId) (after : Growth) :
    Prop where
  tree : after.tree.Extends growth.tree
  package : ∃ p, after.tree.packages = growth.tree.packages ++ [p] ∧ p.id = id ∧
    p.name = source.name
  problems : ∃ repeated, after.problems = growth.problems ++ repeated ∧
    (∀ problem ∈ repeated, problem.isFatal = false) ∧
      repeated = source.ownedFiles.flatMap fun (file, path) =>
        file.repetitions.map (file.redeclared path)

theorem added?_eq_none_iff {growth : Growth} {source : PackageSource} :
    growth.added? source = none ↔ growth.tree.refusals source ≠ [] := by
  rw [added?, ← not_iff_not, not_not, ← List.isEmpty_iff]
  split <;> simp [*]

theorem added?_eq_some_iff {growth : Growth} {source : PackageSource} {id : PackageId} :
    growth.added? source = some id ↔
      growth.tree.refusals source = [] ∧ id = ⟨growth.tree.packages.length⟩ := by
  rw [added?, ← List.isEmpty_iff]
  split <;> simp [*, eq_comm]

theorem refuses_of_added? {growth : Growth} {source : PackageSource}
    (refused : growth.added? source = none) : growth.Refuses (growth.add source) := by
  have some_refusal := added?_eq_none_iff.mp refused
  rw [add]
  split
  · exact absurd ‹_› some_refusal
  · exact ⟨rfl, _, rfl, some_refusal, fun _ mem => (ModuleTree.refusing_of_mem_refusals mem).fatal⟩

theorem takes_of_added? {growth : Growth} {source : PackageSource} {id : PackageId}
    (taken : growth.added? source = some id) : growth.Takes source id (growth.add source) := by
  obtain ⟨clear, rfl⟩ := added?_eq_some_iff.mp taken
  rw [add, clear]
  exact ⟨growth.tree.extends_append source, ⟨_, rfl, rfl, rfl⟩, _, rfl,
    fun _ => PackageSource.not_isFatal_of_mem_redeclarations, source.redeclarations_eq⟩

/-- The packages that are taken when all are offered in turn. -/
def admitted (growth : Growth) : List PackageSource → List PackageSource
  | [] => []
  | source :: rest =>
    if (growth.added? source).isSome then source :: admitted (growth.add source) rest
    else admitted (growth.add source) rest

/-- Some package of the list is refused when its turn comes. -/
def RefusesSome (growth : Growth) (sources : List PackageSource) : Prop :=
  ∃ before source after, sources = before ++ source :: after ∧
    (before.foldl add growth).added? source = none

theorem tree_add_congr {growth growth' : Growth} (same : growth.tree = growth'.tree)
    (source : PackageSource) : (growth.add source).tree = (growth'.add source).tree := by
  have grown : ∀ growth : Growth, (growth.add source).tree =
      if growth.tree.refusals source = [] then growth.tree.append source else growth.tree := by
    intro growth
    rw [add]
    split
    · rename_i clear
      rw [if_pos clear]
    · rename_i conflict
      rw [if_neg conflict]
  rw [grown, grown, same]

/-- The tree grows as if the packages that are refused had not been offered. -/
theorem tree_foldl_admitted : ∀ (sources : List PackageSource) {growth growth' : Growth},
    growth.tree = growth'.tree →
      (sources.foldl add growth).tree = ((growth.admitted sources).foldl add growth').tree
  | [], _, _, same => same
  | source :: rest, growth, growth', same => by
    rw [List.foldl_cons, admitted]
    split
    · exact tree_foldl_admitted rest (tree_add_congr same source)
    · rename_i refused
      have kept := (refuses_of_added? (Option.not_isSome_iff_eq_none.mp refused)).tree
      exact tree_foldl_admitted rest (kept.trans same)

theorem admitted_sublist : ∀ (sources : List PackageSource) (growth : Growth),
    (growth.admitted sources).Sublist sources
  | [], _ => .slnil
  | source :: rest, growth => by
    rw [admitted]
    split
    · exact (admitted_sublist rest _).cons_cons source
    · exact (admitted_sublist rest _).cons source

theorem refusesSome_cons_iff {growth : Growth} {source : PackageSource}
    {rest : List PackageSource} : growth.RefusesSome (source :: rest) ↔
      growth.added? source = none ∨ (growth.add source).RefusesSome rest := by
  constructor
  · rintro ⟨before, refused, after, cut, out⟩
    cases before with
    | nil =>
      obtain ⟨rfl, -⟩ := List.cons.inj cut
      exact .inl out
    | cons first before =>
      obtain ⟨rfl, later⟩ := List.cons.inj cut
      exact .inr ⟨before, refused, after, later, out⟩
  · rintro (out | ⟨before, refused, after, rfl, out⟩)
    · exact ⟨[], source, rest, rfl, out⟩
    · exact ⟨source :: before, refused, after, rfl, out⟩

/-- Something fatal is reported if it was before, or if a package is refused. -/
theorem exists_isFatal_foldl_iff : ∀ (sources : List PackageSource) (growth : Growth),
    (∃ problem ∈ (sources.foldl add growth).problems, problem.isFatal = true) ↔
      (∃ problem ∈ growth.problems, problem.isFatal = true) ∨ growth.RefusesSome sources
  | [], growth => by
    refine (or_iff_left ?_).symm
    rintro ⟨before, source, after, cut, -⟩
    exact absurd cut (by simp)
  | source :: rest, growth => by
    rw [List.foldl_cons, exists_isFatal_foldl_iff rest, refusesSome_cons_iff, ← or_assoc]
    refine or_congr_left ?_
    cases offered : growth.added? source with
    | none =>
      obtain ⟨-, refusals, problems, some_refusal, fatal⟩ := refuses_of_added? offered
      obtain ⟨refusal, mem⟩ := List.exists_mem_of_ne_nil _ some_refusal
      rw [problems]
      exact iff_of_true ⟨refusal, List.mem_append_right _ mem, fatal refusal mem⟩ (.inr rfl)
    | some id =>
      obtain ⟨-, -, repeated, problems, harmless, -⟩ := takes_of_added? offered
      rw [problems]
      simp only [List.mem_append, or_and_right, exists_or, reduceCtorEq, or_false]
      refine or_iff_left ?_
      rintro ⟨problem, mem, fatal⟩
      rw [harmless problem mem] at fatal
      exact absurd fatal (by simp)

/-- A package is either refused or taken, whatever was offered before: refusing it changes nothing
but the problems, taking it only appends. So the tree of any packages is that of the ones that are
taken, and something fatal is reported exactly if one of them is refused. -/
theorem add_atomic (sources : List PackageSource) :
    (∀ source, let growth := sources.foldl add empty
      (growth.added? source = none → growth.Refuses (growth.add source)) ∧
      ∀ id, growth.added? source = some id → growth.Takes source id (growth.add source)) ∧
    (empty.admitted sources).Sublist sources ∧
    (ofSources sources).tree = (ofSources (empty.admitted sources)).tree ∧
    ((∃ problem ∈ (ofSources sources).problems, problem.isFatal = true) ↔
      empty.RefusesSome sources) := by
  refine ⟨fun source => ⟨refuses_of_added?, fun id => takes_of_added?⟩,
    admitted_sublist sources empty, tree_foldl_admitted sources rfl, ?_⟩
  have finished : ∀ growth : Growth, (∃ problem ∈ growth.finish.problems, problem.isFatal = true) ↔
      ∃ problem ∈ growth.problems, problem.isFatal = true := by
    intro growth
    simp only [finish, List.mem_append, or_and_right, exists_or]
    refine or_iff_left ?_
    rintro ⟨problem, mem, fatal⟩
    rw [ModuleTree.not_isFatal_of_mem_unknownPackages mem] at fatal
    exact absurd fatal (by simp)
  rw [ofSources, finished, exists_isFatal_foldl_iff]
  exact or_iff_right fun ⟨_, absent, _⟩ => absurd absent List.not_mem_nil

end Growth

end LetModules
