import LetModules.Proofs.Tree.Ancestry
import Mathlib.Logic.Relation

/-!
The way through a tree in post-order. It comes to every directory once, and to each one after all
that lie below it; the modules that it meets on the way are those of the tree, each once, and the
one that folds a directory is the last that it meets there (`postordered_ofSources`).

The way goes down the directories as they hold each other, whereas a directory knows its parent by
its id only. So what lies below a directory is said by going up (`LiesBelow`), and both agree.
-/

namespace LetModules

namespace ModuleTree

/-- Going up from the first directory, from parent to parent, leads to the second. -/
def LiesBelow (tree : ModuleTree) : Directory → Directory → Prop :=
  Relation.TransGen fun d parent => d.parent.bind tree.directory? = some parent

/-- The way in post-order through the directories of a tree, and through the modules listed by
them. -/
structure Postordered (tree : ModuleTree) : Prop where
  directories : tree.postorder.Perm tree.directories
  directoryIds : (tree.postorder.map (·.id)).Nodup
  /-- What lies below a directory does not come after it. -/
  upwards : tree.postorder.Pairwise fun earlier later => ¬ tree.LiesBelow later earlier
  modules : (tree.postorder.flatMap (·.listing)).Perm tree.modules
  moduleIds : ((tree.postorder.flatMap (·.listing)).map (·.id)).Nodup
  /-- No module of a directory comes after the one that folds it. -/
  foldsLast : (tree.postorder.flatMap (·.listing)).Pairwise fun earlier later =>
    later.directory = earlier.directory → earlier.folds = false

end ModuleTree

namespace Directory

/-- Subtrees without common directories are walked one after the other. -/
theorem pairwise_flatMap_postorder {directories : List Directory}
    (distinct : (directories.flatMap subtree).Nodup)
    (each : ∀ d ∈ directories,
      d.postorder.Pairwise fun earlier later => later ∉ earlier.subtree) :
    (directories.flatMap postorder).Pairwise fun earlier later => later ∉ earlier.subtree := by
  obtain ⟨-, apart⟩ := List.nodup_flatMap.mp distinct
  refine List.pairwise_flatMap.mpr ⟨each, apart.imp fun disjoint e he f hf below => ?_⟩
  have inFirst := mem_subtree_trans ((postorder_perm _).mem_iff.mp he) below
  exact disjoint inFirst ((postorder_perm _).mem_iff.mp hf)

/-- In post-order a directory comes after all below it. -/
theorem pairwise_postorder {d : Directory} (distinct : d.subtree.Nodup) :
    d.postorder.Pairwise fun earlier later => later ∉ earlier.subtree := by
  induction d using Directory.induction with
  | step d ih =>
    rw [subtree_eq, List.nodup_cons] at distinct
    obtain ⟨new, distinct⟩ := distinct
    rw [postorder_eq, List.pairwise_append]
    refine ⟨pairwise_flatMap_postorder distinct fun child hc => ?_,
      List.pairwise_singleton _ _, fun e he f hf below => new ?_⟩
    · exact ih child hc ((List.nodup_flatMap.mp distinct).1 child hc)
    · obtain rfl := List.mem_singleton.mp hf
      obtain ⟨child, hc, he⟩ := List.mem_flatMap.mp he
      have inChild := mem_subtree_trans (child.postorder_perm.mem_iff.mp he) below
      exact List.mem_flatMap.mpr ⟨child, hc, inChild⟩

/-- A listing ends with the module that folds the directory, if there is one. -/
theorem pairwise_listing (d : Directory) :
    d.listing.Pairwise fun earlier _ => earlier.folds = false := by
  have plain : ∀ m ∈ d.plain, m.folds = false := fun m hm => (mem_plain.mp hm).2
  rw [listing, List.pairwise_append]
  refine ⟨List.pairwise_of_forall_mem_list fun m hm _ _ => plain m hm, ?_,
    fun m hm _ _ => plain m hm⟩
  cases d.fold? with
  | none => exact .nil
  | some fold => exact List.pairwise_singleton _ fold

end Directory

namespace ModuleTree.Sound

variable {tree : ModuleTree} (sound : tree.Sound)

include sound

theorem postorder_perm : tree.postorder.Perm tree.directories := by
  rw [ModuleTree.postorder, sound.directories, Package.directoriesOf]
  exact List.Perm.flatMap_left _ fun p _ =>
    List.Perm.flatMap_left _ fun r _ => r.postorder_perm

/-- The way through the directories comes to every module once. -/
theorem listings_postorder_perm : (tree.postorder.flatMap (·.listing)).Perm tree.modules :=
  (sound.postorder_perm.flatMap_right _).trans sound.listings_perm

/-- The parent of a directory holds it. -/
theorem mem_children_of_parent {d parent : Directory} (hd : d ∈ tree.directories)
    (up : d.parent.bind tree.directory? = some parent) :
    parent ∈ tree.directories ∧ d ∈ parent.children := by
  obtain ⟨id, named, found⟩ := Option.bind_eq_some_iff.mp up
  obtain ⟨mem, rfl⟩ := sound.directory?_eq_some_iff.mp found
  exact ⟨mem, (sound.liesIn_iff hd mem).mp ⟨d, sound.directory?_id hd, named⟩⟩

/-- Going up from a directory leads to those that hold it. -/
theorem mem_subtree_of_liesBelow {d e : Directory} (he : e ∈ tree.directories)
    (below : tree.LiesBelow e d) : e ∈ d.subtree := by
  induction below using Relation.TransGen.head_induction_on with
  | single up =>
    obtain ⟨-, child⟩ := sound.mem_children_of_parent he up
    exact Directory.mem_subtree_of_child child (Directory.mem_subtree_self _)
  | head up _ ih =>
    obtain ⟨mem, child⟩ := sound.mem_children_of_parent he up
    have near := Directory.mem_subtree_of_child child (Directory.mem_subtree_self _)
    exact Directory.mem_subtree_trans (ih mem) near

/-- The way through a tree, root by root, comes to each directory after those that lie below it. -/
theorem pairwise_postorder :
    tree.postorder.Pairwise fun earlier later => ¬ tree.LiesBelow later earlier := by
  have distinct := sound.nodup_directories
  rw [sound.directories, Package.directoriesOf, ← List.flatMap_assoc] at distinct
  have walked := Directory.pairwise_flatMap_postorder distinct fun d hd =>
    Directory.pairwise_postorder ((List.nodup_flatMap.mp distinct).1 d hd)
  rw [List.flatMap_assoc] at walked
  refine List.Pairwise.imp_of_mem (fun {earlier later} _ hl outside below => outside ?_) walked
  exact sound.mem_subtree_of_liesBelow (sound.postorder_perm.mem_iff.mp hl) below

theorem nodup_postorder : (tree.postorder.map (·.id)).Nodup := by
  have ids : (tree.directories.map (·.id)).Nodup := by
    refine List.Nodup.of_map (·.index) ?_
    rw [List.map_map]
    exact sound.numbered.directories.nodup
  exact (sound.postorder_perm.map _).nodup_iff.mpr ids

/-- A module that folds its directory is the last of those that are met there. -/
theorem pairwise_listings : (tree.postorder.flatMap (·.listing)).Pairwise fun earlier later =>
    later.directory = earlier.directory → earlier.folds = false := by
  have sits : ∀ d ∈ tree.postorder, ∀ m ∈ d.listing, m.directory = d.id := by
    intro d hd m hm
    have mem := sound.postorder_perm.mem_iff.mp hd
    exact (sound.sits mem ((Directory.listing_perm (sound.distinct d mem)).mem_iff.mp hm)).directory
  refine List.pairwise_flatMap.mpr ⟨fun d _ => ?_, ?_⟩
  · refine List.Pairwise.imp ?_ d.pairwise_listing
    exact fun plain _ => plain
  have apart := List.pairwise_map.mp sound.nodup_postorder
  refine apart.imp_of_mem fun {d e} hd he differ m hm n hn same => absurd ?_ differ
  rw [← sits d hd m hm, ← sits e he n hn, same]

/-- The way in post-order leaves out nothing of a sound tree, and comes to nothing twice. -/
theorem postordered : tree.Postordered where
  directories := sound.postorder_perm
  directoryIds := sound.nodup_postorder
  upwards := sound.pairwise_postorder
  modules := sound.listings_postorder_perm
  moduleIds := (sound.listings_postorder_perm.map _).nodup_iff.mpr sound.nodup_ids
  foldsLast := sound.pairwise_listings

end ModuleTree.Sound

/-- In the tree of any packages, the way in post-order comes to everything once and in order. -/
theorem ModuleTree.postordered_ofSources (sources : List PackageSource) :
    (Growth.ofSources sources).tree.Postordered :=
  (Growth.sound_ofSources sources).postordered

/-- Ids are handed out on the way down, so the way in post-order does not follow them. -/
example :
    let file : String → ModuleSource := fun name => ⟨name, none, [], []⟩
    let inner : DirectorySource :=
      ⟨"List", [file "List", file "Sort"], [⟨"Deep", [file "Base"], []⟩]⟩
    let tree := (Growth.ofSources [⟨"app", [], ⟨"src", [file "Main"], [inner]⟩, none⟩]).tree
    tree.postorder.map (·.id.index) = [2, 1, 0] ∧
      (tree.postorder.flatMap (·.listing)).map (·.name) = ["Base", "Sort", "List", "Main"] := by
  decide +kernel

end LetModules
