import LetModules.Proofs.Tree.Descent
import LetModules.Scope

/-!
The search for a bare name. It goes down from one directory to the next, and comes to a folding
module by the name of the directory and to a plain one by its own name (`modulesNamed_eq`). Where
names tell things apart it finds the modules of the name in the whole subtree, each once and in the
order of the tree (`modulesNamed_eq_flatMap`).
-/

namespace LetModules.Directory

variable {d : Directory} {name : String}

theorem namedBelows_eq_flatMap (name : String) : ∀ directories : List Directory,
    namedBelows name directories = directories.flatMap (·.modulesNamed name)
  | [] => rfl
  | _ :: rest => by
    rw [namedBelows, namedBelows_eq_flatMap name rest, List.flatMap_cons, modulesNamed]

/-- A search goes through the directory itself, and then in the same way through each
sub-directory. -/
theorem modulesNamed_eq (d : Directory) (name : String) :
    d.modulesNamed name = (d.foldNamed? name).toList ++ (d.plain? name).toList
      ++ d.children.flatMap (·.modulesNamed name) := by
  cases d
  rw [modulesNamed, namedBelow, namedBelows_eq_flatMap, List.append_assoc]

/-- In the directory itself, the search finds the modules of the name. -/
theorem filter_name_eq (shaped : d.Shaped) (distinct : d.Distinct) (name : String) :
    d.modules.filter (·.name = name) = (d.foldNamed? name).toList ++ (d.plain? name).toList := by
  have single : (d.plain? name).toList = d.plain.filter (·.name = name) :=
    toList_find?_of_length_le_one (length_filter_le_one_of_nodup distinct.plain name)
  rw [single, plain, List.filter_filter]
  by_cases own : d.parent.isNone = false ∧ d.name = name
  · -- the modules of the name are those that fold the directory
    obtain ⟨below, rfl⟩ := own
    have folds : ∀ m ∈ d.modules, decide (m.name = d.name) = m.folds := by
      intro m hm
      rw [shaped.folds m hm, below, Bool.not_false, Bool.true_and]
    have noPlain : d.modules.filter (fun m => decide (m.name = d.name) && !m.folds) = [] := by
      rw [List.filter_eq_nil_iff]
      intro m hm
      rw [folds m hm, Bool.and_not_self]
      exact Bool.false_ne_true
    rw [noPlain, List.append_nil, foldNamed?, if_pos rfl, fold?,
      toList_find?_of_length_le_one distinct.fold]
    exact List.filter_congr folds
  · -- no module of the name folds the directory
    have plain : ∀ m ∈ d.modules, m.name = name → m.folds = false := by
      rintro m hm rfl
      rw [shaped.folds m hm]
      by_contra both
      simp only [Bool.not_eq_false, Bool.and_eq_true, Bool.not_eq_true', decide_eq_true_eq] at both
      exact own ⟨both.1, both.2.symm⟩
    have noFold : d.foldNamed? name = none := by
      rw [foldNamed?]
      split
      · rename_i named
        rw [fold?, List.find?_eq_none]
        intro m hm folds
        have same : m.name = name := ((shaped.sits m hm).named folds).trans named
        rw [plain m hm same] at folds
        exact Bool.false_ne_true folds
      · rfl
    rw [noFold, Option.toList_none, List.nil_append]
    refine List.filter_congr fun m hm => ?_
    by_cases named : m.name = name
    · simp [named, plain m hm named]
    · simp [named]

/-- In an orderly directory, the search finds the modules of the name in the subtree. -/
theorem modulesNamed_eq_flatMap (orderly : d.Orderly) (name : String) :
    d.modulesNamed name = d.subtree.flatMap fun e => e.modules.filter (·.name = name) := by
  induction d using Directory.induction with
  | step d ih =>
    rw [modulesNamed_eq, subtree_eq, List.flatMap_cons, List.flatMap_assoc,
      filter_name_eq orderly.shaped_self orderly.distinct_self]
    exact congrArg _ (List.flatMap_congr fun child hc => ih child hc (orderly.child hc))

theorem mem_modulesNamed (orderly : d.Orderly) {m : Module} :
    m ∈ d.modulesNamed name ↔ ∃ e ∈ d.subtree, m ∈ e.modules ∧ m.name = name := by
  rw [modulesNamed_eq_flatMap orderly, List.mem_flatMap]
  simp only [List.mem_filter, decide_eq_true_eq]

end LetModules.Directory
