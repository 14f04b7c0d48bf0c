import LetModules.Tree
import Mathlib.Data.List.Perm.Basic

/-!
Subtrees of directories. A subtree is its root and then the subtrees of the children, so whatever
holds at a directory whenever it holds at its children holds everywhere (`Directory.induction`).
Walking up and walking down agree: what lies below a directory below `d` lies below `d`.
-/

namespace LetModules

namespace Directory

theorem subtrees_eq_flatMap : ∀ directories : List Directory,
    subtrees directories = directories.flatMap subtree
  | [] => rfl
  | _ :: rest => by rw [subtrees, subtrees_eq_flatMap rest, List.flatMap_cons]

theorem postorders_eq_flatMap : ∀ directories : List Directory,
    postorders directories = directories.flatMap postorder
  | [] => rfl
  | _ :: rest => by rw [postorders, postorders_eq_flatMap rest, List.flatMap_cons]

/-- A subtree is its root, and then the subtrees of the children in order. -/
theorem subtree_eq (directory : Directory) :
    directory.subtree = directory :: directory.children.flatMap subtree := by
  cases directory
  rw [subtree, subtrees_eq_flatMap]

theorem postorder_eq (directory : Directory) :
    directory.postorder = directory.children.flatMap postorder ++ [directory] := by
  cases directory
  rw [postorder, postorders_eq_flatMap]

/-- What holds at a directory whenever it holds at all its children holds at every directory. -/
@[elab_as_elim]
theorem induction {motive : Directory → Prop}
    (step : ∀ directory, (∀ child ∈ directory.children, motive child) → motive directory)
    (directory : Directory) : motive directory := by
  -- the recursor of the nested type speaks of a directory and of a list of directories
  refine @Directory.rec motive (fun directories => ∀ child ∈ directories, motive child)
    ?_ ?_ ?_ directory
  · exact fun _ _ _ _ _ _ _ _ below => step _ below
  · exact fun _ absent => absurd absent List.not_mem_nil
  · intro head tail atHead atTail child mem
    rcases List.mem_cons.mp mem with rfl | mem
    · exact atHead
    · exact atTail child mem

theorem mem_subtree_self (directory : Directory) : directory ∈ directory.subtree := by
  rw [subtree_eq]
  exact List.mem_cons_self

theorem mem_subtree {d e : Directory} :
    e ∈ d.subtree ↔ e = d ∨ ∃ child ∈ d.children, e ∈ child.subtree := by
  rw [subtree_eq, List.mem_cons, List.mem_flatMap]

theorem mem_subtree_of_child {d child e : Directory} (mem : child ∈ d.children)
    (below : e ∈ child.subtree) : e ∈ d.subtree :=
  mem_subtree.mpr (.inr ⟨child, mem, below⟩)

/-- What lies below a directory below `d` lies below `d`. -/
theorem mem_subtree_trans {d e f : Directory} (he : e ∈ d.subtree) (hf : f ∈ e.subtree) :
    f ∈ d.subtree := by
  induction d using Directory.induction with
  | step d ih =>
    rcases mem_subtree.mp he with rfl | ⟨child, mem, below⟩
    · exact hf
    · exact mem_subtree_of_child mem (ih child mem below)

/-- The subtree of a directory in the subtree of `d` is part of that subtree, in its order. -/
theorem subtree_sublist {d e : Directory} (he : e ∈ d.subtree) :
    e.subtree.Sublist d.subtree := by
  induction d using Directory.induction with
  | step d ih =>
    rcases mem_subtree.mp he with rfl | ⟨child, mem, below⟩
    · exact List.Sublist.refl _
    · rw [subtree_eq d]
      have within : child.subtree.Sublist (d.children.flatMap subtree) := by
        rw [List.flatMap_def]
        exact List.sublist_flatten_of_mem (List.mem_map_of_mem mem)
      exact ((ih child mem below).trans within).cons d

/-- Every directory of a subtree but its root is a child of another one there. -/
theorem exists_parent {d e : Directory} (he : e ∈ d.subtree) :
    e = d ∨ ∃ parent ∈ d.subtree, e ∈ parent.children := by
  induction d using Directory.induction with
  | step d ih =>
    rcases mem_subtree.mp he with rfl | ⟨child, mem, below⟩
    · exact .inl rfl
    · rcases ih child mem below with rfl | ⟨parent, hp, hc⟩
      · exact .inr ⟨d, mem_subtree_self d, mem⟩
      · exact .inr ⟨parent, mem_subtree_of_child mem hp, hc⟩

/-- Both orders list the same directories. -/
theorem postorder_perm (directory : Directory) :
    directory.postorder.Perm directory.subtree := by
  induction directory using Directory.induction with
  | step directory ih =>
    rw [postorder_eq, subtree_eq]
    have below : (directory.children.flatMap postorder).Perm
        (directory.children.flatMap subtree) := List.Perm.flatMap_left _ ih
    exact (below.append_right _).trans (List.perm_append_singleton _ _)

end Directory

end LetModules
