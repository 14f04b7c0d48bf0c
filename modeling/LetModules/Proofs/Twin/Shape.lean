import LetModules.Proofs.Twin.Outcome

/-!
Directories of one shape: the same names at the same paths, whatever the ids. A source that is
placed twice makes directories of one shape (`sameShape_place`), and a walk misses the same segment
in both of them, with the same hint (`agree_walk`).
-/

namespace LetModules

namespace Directory

/-- The directories have one name and one path, list modules of the same names, and so do the
directories in and below them, in the same order. -/
inductive SameShape : Directory → Directory → Prop
  | intro {d e : Directory} (name : d.name = e.name) (path : d.path = e.path)
    (modules : d.modules.map (fun m => (m.name, m.folds)) =
      e.modules.map fun m => (m.name, m.folds))
    (children : List.Forall₂ SameShape d.children e.children) : SameShape d e

namespace SameShape

variable {d e : Directory}

theorem name (same : d.SameShape e) : d.name = e.name := by
  cases same
  assumption

theorem path (same : d.SameShape e) : d.path = e.path := by
  cases same
  assumption

theorem rel_child? (same : d.SameShape e) (name : String) :
    Option.Rel SameShape (d.child? name) (e.child? name) := by
  cases same with
  | intro _ _ _ children => exact rel_find? (fun _ _ same => by rw [same.name]) children

/-- The modules have one name, and both fold their directory or none does. -/
theorem forall₂_modules (same : d.SameShape e) :
    List.Forall₂ (fun m n => m.name = n.name ∧ m.folds = n.folds) d.modules e.modules := by
  cases same with
  | intro _ _ modules _ =>
    exact forall₂_of_map_eq modules fun _ _ _ _ same => Prod.mk.inj same

theorem rel_fold? (same : d.SameShape e) :
    Option.Rel (fun m n => m.name = n.name ∧ m.folds = n.folds) d.fold? e.fold? :=
  rel_find? (fun _ _ modules => modules.2) same.forall₂_modules

theorem rel_plain? (same : d.SameShape e) (name : String) :
    Option.Rel (fun m n => m.name = n.name ∧ m.folds = n.folds) (d.plain? name)
      (e.plain? name) := by
  refine rel_find? (fun _ _ modules => by rw [modules.1]) ?_
  exact List.rel_filter (fun _ _ modules => by simp [modules.2]) same.forall₂_modules

/-- A name is found in both directories, or missed with the same hint. -/
theorem agree_arrive (same : d.SameShape e) (name : String) :
    Agree (fun _ _ => True) (fun miss => miss) (d.arrive name) (e.arrive name) := by
  have plain := same.rel_plain? name
  have child := same.rel_child? name
  rw [arrive, arrive]
  generalize d.plain? name = m at plain ⊢
  generalize e.plain? name = n at plain ⊢
  cases plain with
  | some _ => trivial
  | none =>
    generalize d.child? name = c at child ⊢
    generalize e.child? name = c' at child ⊢
    cases child with
    | none => rfl
    | @some c c' inside =>
      have folding := inside.rel_fold?
      dsimp only
      rw [inside.path]
      generalize c.fold? = m at folding ⊢
      generalize c'.fold? = n at folding ⊢
      cases folding with
      | none => rfl
      | some _ => trivial

/-- A walk finds something in both directories, or misses the same segment with the same hint. -/
theorem agree_walk : ∀ (names : List String) {d e : Directory}, d.SameShape e →
    Agree (fun _ _ => True) (fun miss => miss) (d.walk names) (e.walk names)
  | [], _, _, _ => rfl
  | [name], _, _, same => same.agree_arrive name
  | name :: next :: rest, d, e, same => by
    have child := same.rel_child? name
    rw [Directory.walk, Directory.walk]
    generalize d.child? name = c at child ⊢
    generalize e.child? name = c' at child ⊢
    cases child with
    | none => rfl
    | some inside => exact agree_walk (next :: rest) inside

end SameShape

end Directory

namespace DirectorySource

variable (grounds grounds' : Grounds)

mutual

/-- Wherever a source is placed, the shape is the same. -/
theorem sameShape_place (parent parent' : Option DirectoryId)
    (isRoot : parent.isNone = parent'.isNone) (path : List String) (next next' : NextIds) :
    ∀ source : DirectorySource,
      (place grounds parent path next source).1.SameShape
        (place grounds' parent' path next' source).1
  | ⟨name, files, directories⟩ => by
    have modules := (names_place grounds parent path next ⟨name, files, directories⟩).trans
      (isRoot ▸ (names_place grounds' parent' path next' ⟨name, files, directories⟩).symm)
    refine .intro ?_ ?_ modules ?_
    · rw [place, place]
    · rw [place, place]
    · rw [place, place]
      exact sameShape_placeChildren ..

theorem sameShape_placeChildren (parent parent' : DirectoryId) (path : List String)
    (next next' : NextIds) : ∀ sources : List DirectorySource,
      List.Forall₂ Directory.SameShape (placeChildren grounds parent path next sources).1
        (placeChildren grounds' parent' path next' sources).1
  | [] => .nil
  | child :: rest => by
    rw [placeChildren, placeChildren]
    exact .cons (sameShape_place (some parent) (some parent') rfl _ _ _ child)
      (sameShape_placeChildren parent parent' path _ _ rest)

end

end DirectorySource

end LetModules
