import LetModules.Proofs.Tree.Descent
import LetModules.Scope

/-!
Walks along a path. Where names tell things apart, a walk finds exactly the module that owns the
path (`walk_eq_ok_iff`), folding included.
-/

namespace LetModules.Directory

variable {d : Directory}

/-- The module that a name leads to from a directory: a plain one there, or the one that folds the
sub-directory of that name. -/
theorem arrive_eq_ok_iff (distinct : d.Distinct)
    (below : ∀ child ∈ d.children, child.Distinct) {name : String} {m : Module} :
    d.arrive name = .ok m ↔ ((m ∈ d.modules ∧ m.folds = false) ∧ m.name = name) ∨
      ∃ child ∈ d.children, child.name = name ∧ m ∈ child.modules ∧ m.folds = true := by
  rw [← plain?_eq_some_iff distinct, arrive]
  cases plain : d.plain? name with
  | some other =>
    -- a plain module hides a folded sub-directory, but there is none of its name
    have unfolded : ¬ ∃ child ∈ d.children, child.name = name ∧ m ∈ child.modules ∧
        m.folds = true := by
      rintro ⟨child, hc, rfl, hm, folds⟩
      obtain ⟨ho, same⟩ := (plain?_eq_some_iff distinct).mp plain
      exact distinct.apart child hc m hm folds (List.mem_map.mpr ⟨other, mem_plain.mpr ho, same⟩)
    simp [unfolded]
  | none =>
    cases found : d.child? name with
    | none =>
      have absent : ¬ ∃ child ∈ d.children, child.name = name ∧ m ∈ child.modules ∧
          m.folds = true := by
        rintro ⟨child, hc, named, -⟩
        rw [(child?_eq_some_iff distinct).mpr ⟨hc, named⟩] at found
        exact absurd found (by simp)
      simp [absent]
    | some child =>
      obtain ⟨hc, named⟩ := (child?_eq_some_iff distinct).mp found
      have only : (∃ child' ∈ d.children, child'.name = name ∧ m ∈ child'.modules ∧
          m.folds = true) ↔ child.fold? = some m := by
        rw [fold?_eq_some_iff (below child hc)]
        constructor
        · rintro ⟨child', hc', named', hm⟩
          rw [(child?_eq_some_iff distinct).mpr ⟨hc', named'⟩] at found
          exact Option.some.inj found ▸ hm
        · exact fun hm => ⟨child, hc, named, hm⟩
      rw [only]
      dsimp only
      cases child.fold? <;> simp

/-- A module of an orderly directory is where it says that it is. -/
theorem Orderly.sits (orderly : d.Orderly) {e : Directory} (he : e ∈ d.subtree) {m : Module}
    (hm : m ∈ e.modules) : m.Sits e :=
  (orderly.shaped e he).sits m hm

/-- What lies below a directory and has a path through a child lies below that child. -/
theorem Orderly.mem_subtree_child (orderly : d.Orderly) {e : Directory} (he : e ∈ d.subtree)
    {name : String} {rest : List String} (path : e.path = d.path ++ name :: rest) :
    ∃ child ∈ d.children, child.name = name ∧ e ∈ child.subtree := by
  have found := (descend_eq_some_iff orderly).mpr ⟨he, path⟩
  obtain ⟨child, named, onward⟩ := Option.bind_eq_some_iff.mp found
  obtain ⟨hc, same⟩ := (child?_eq_some_iff orderly.distinct_self).mp named
  exact ⟨child, hc, same, ((descend_eq_some_iff (orderly.child hc)).mp onward).1⟩

/-- The last step of a walk finds the module that owns the path one name longer. -/
theorem Orderly.arrive_eq_ok_iff (orderly : d.Orderly) {name : String} {m : Module} :
    d.arrive name = .ok m ↔ ∃ e ∈ d.subtree, m ∈ e.modules ∧ m.path = d.path ++ [name] := by
  have shaped := orderly.shaped_self
  rw [Directory.arrive_eq_ok_iff orderly.distinct_self fun child hc =>
    (orderly.child hc).distinct_self]
  constructor
  · rintro (⟨⟨hm, plain⟩, rfl⟩ | ⟨child, hc, rfl, hm, folds⟩)
    · refine ⟨d, mem_subtree_self d, hm, ?_⟩
      simp [(shaped.sits m hm).path, plain]
    · have hs := mem_subtree_of_child hc (mem_subtree_self child)
      refine ⟨child, hs, hm, ?_⟩
      simp [(orderly.sits hs hm).path, folds, shaped.path child hc]
  · rintro ⟨e, he, hm, path⟩
    have sits := orderly.sits he hm
    by_cases folds : m.folds = true
    · -- the module folds a sub-directory, which the name leads to
      have through : e.path = d.path ++ [name] := by simpa [folds, path] using sits.path.symm
      obtain ⟨child, hc, named, hec⟩ := orderly.mem_subtree_child he through
      have at_child : child.path = e.path := by rw [shaped.path child hc, named, through]
      obtain rfl := eq_of_path_eq (orderly.child hc) (mem_subtree_self child) hec at_child
      exact .inr ⟨child, hc, named, hm, folds⟩
    · have plain : m.folds = false := by simpa using folds
      have ends : e.path ++ [m.name] = d.path ++ [name] := by
        simpa [plain, path] using sits.path.symm
      obtain ⟨here, named⟩ := List.append_inj' ends rfl
      obtain rfl := eq_of_path_eq orderly he (mem_subtree_self d) here
      exact .inl ⟨⟨hm, plain⟩, List.singleton_inj.mp named⟩

/-- A walk finds the module that owns the path, and no other. -/
theorem walk_eq_ok_iff (orderly : d.Orderly) {names : List String} {m : Module} :
    d.walk names = .ok m ↔
      names ≠ [] ∧ ∃ e ∈ d.subtree, m ∈ e.modules ∧ m.path = d.path ++ names := by
  induction names generalizing d with
  | nil => simp [walk]
  | cons name rest ih =>
    have shaped := orderly.shaped_self
    have distinct := orderly.distinct_self
    cases rest with
    | nil =>
      rw [walk, orderly.arrive_eq_ok_iff]
      exact (and_iff_right (List.cons_ne_nil _ _)).symm
    | cons next rest =>
      rw [walk]
      constructor
      · intro found
        cases named : d.child? name with
        | none => simp [named] at found
        | some child =>
          obtain ⟨hc, rfl⟩ := (child?_eq_some_iff distinct).mp named
          simp only [named] at found
          obtain ⟨-, e, he, hm, path⟩ := (ih (orderly.child hc)).mp found
          refine ⟨by simp, e, mem_subtree_of_child hc he, hm, ?_⟩
          rw [path, shaped.path child hc, List.append_assoc, List.singleton_append]
      · rintro ⟨-, e, he, hm, path⟩
        -- the directory of the module lies below the child that the path begins with
        obtain ⟨tail, through⟩ : ∃ tail, e.path = d.path ++ name :: tail := by
          have sits := (orderly.sits he hm).path
          by_cases folds : m.folds = true
          · exact ⟨next :: rest, by simpa [folds, path] using sits.symm⟩
          · refine ⟨(next :: rest).dropLast, ?_⟩
            have cut := congrArg List.dropLast sits
            simpa [folds, path] using cut.symm
        obtain ⟨child, hc, rfl, hec⟩ := orderly.mem_subtree_child he through
        rw [(child?_eq_some_iff distinct).mpr ⟨hc, rfl⟩]
        refine (ih (orderly.child hc)).mpr ⟨by simp, e, hec, hm, ?_⟩
        rw [path, shaped.path child hc, List.append_assoc, List.singleton_append]

end LetModules.Directory
