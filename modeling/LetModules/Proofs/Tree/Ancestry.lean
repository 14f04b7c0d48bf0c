import LetModules.Proofs.Tree.Representation

/-!
Who lies below whom. Directories name their parents, and going up from parent to parent leads to
exactly those in whose subtree a directory lies (`mem_subtree_iff_liesIn`). So a search of the
subtree and the way up agree on whether one directory lies within another
(`isWithin_iff_liesIn`), and so do the paths of the modules in them (`encloses_iff_liesIn`,
`isWithin_iff`).
-/

namespace LetModules

open Relation (ReflTransGen)

namespace ModuleTree

/-- The directory `below` has `above` for its parent. -/
def LiesIn (tree : ModuleTree) (below above : DirectoryId) : Prop :=
  ∃ d, tree.directory? below = some d ∧ d.parent = some above

namespace Sound

variable {tree : ModuleTree} (sound : tree.Sound)

include sound

/-- The parent that a directory names is the one that lists it. -/
theorem liesIn_iff {d above : Directory} (hd : d ∈ tree.directories)
    (ha : above ∈ tree.directories) : tree.LiesIn d.id above.id ↔ d ∈ above.children := by
  have found := sound.directory?_id hd
  constructor
  · rintro ⟨d', found', parent⟩
    obtain rfl := Option.some.inj (found.symm.trans found')
    rcases sound.isRoot_or_listedBy hd with root | ⟨lister, listed⟩
    · exact absurd (root.parent.symm.trans parent) (by simp)
    · have same : lister.id = above.id := Option.some.inj (listed.parent.symm.trans parent)
      obtain ⟨hl, -⟩ := sound.directory?_eq_some_iff.mp listed.found
      obtain rfl := sound.numbered.directories.inj hl ha (congrArg (·.index) same)
      exact ((Directory.child?_eq_some_iff (sound.distinct _ hl)).mp listed.listed).1
  · exact fun child => ⟨d, found, (sound.shaped above ha).parent d child⟩

/-- Going up from parent to parent leads to the directories in whose subtree one lies. -/
theorem mem_subtree_iff_liesIn {d e : Directory} (hd : d ∈ tree.directories)
    (he : e ∈ tree.directories) : e ∈ d.subtree ↔ ReflTransGen tree.LiesIn e.id d.id := by
  constructor
  · intro below
    induction d using Directory.induction with
    | step d ih =>
      rcases Directory.mem_subtree.mp below with rfl | ⟨child, hc, below⟩
      · exact .refl
      · have hc' := sound.mem_directories_of_mem_children hd hc
        exact .tail (ih child hc hc' below) ((sound.liesIn_iff hc' hd).mpr hc)
  · intro up
    generalize target : d.id = top at up
    induction up generalizing d with
    | refl =>
      obtain rfl := sound.numbered.directories.inj hd he (congrArg (·.index) target)
      exact d.mem_subtree_self
    | tail _ last ih =>
      subst target
      have ⟨child, found, _⟩ := last
      obtain ⟨hc, rfl⟩ := sound.directory?_eq_some_iff.mp found
      exact Directory.mem_subtree_of_child ((sound.liesIn_iff hc hd).mp last) (ih hc rfl)

/-- The directory of one module encloses that of another if the parents lead up to it. -/
theorem encloses_iff_liesIn {m x : Module} (hm : m ∈ tree.modules) (hx : x ∈ tree.modules) :
    m.Encloses x ↔ ReflTransGen tree.LiesIn x.directory m.directory := by
  obtain ⟨d, hd, -, -, sits⟩ := sound.exists_directory hm
  obtain ⟨e, he, -, -, sits'⟩ := sound.exists_directory hx
  rw [sits.directory, sits'.directory, ← sound.mem_subtree_iff_liesIn hd he,
    sound.mem_subtree_iff hd]
  simp only [he, true_and, Directory.Encloses, Module.Encloses, sits.package, sits.root,
    sits.directoryPath, sits'.package, sits'.root, sits'.directoryPath]

/-- A directory lies within those that going up from it leads to. -/
theorem isWithin_iff_liesIn {d e : Directory} (hd : d ∈ tree.directories)
    (he : e ∈ tree.directories) :
    tree.isWithin e.id d.id = true ↔ ReflTransGen tree.LiesIn e.id d.id := by
  rw [← sound.mem_subtree_iff_liesIn hd he, isWithin, sound.directory?_id hd, List.any_eq_true]
  constructor
  · rintro ⟨f, hf, same⟩
    have hf' := ((sound.mem_subtree_iff hd).mp hf).1
    have named : f.id = e.id := of_decide_eq_true same
    exact sound.numbered.directories.inj hf' he (congrArg (·.index) named) ▸ hf
  · exact fun below => ⟨e, below, decide_eq_true rfl⟩

/-- Whether a directory lies within another shows in the modules that they hold. -/
theorem isWithin_iff {m n : Module} (hm : m ∈ tree.modules) (hn : n ∈ tree.modules) :
    tree.isWithin n.directory m.directory = true ↔ m.Encloses n := by
  obtain ⟨d, hd, -, -, sits⟩ := sound.exists_directory hm
  obtain ⟨e, he, -, -, sits'⟩ := sound.exists_directory hn
  rw [sound.encloses_iff_liesIn hm hn, sits.directory, sits'.directory]
  exact sound.isWithin_iff_liesIn hd he

end Sound

end ModuleTree

end LetModules
