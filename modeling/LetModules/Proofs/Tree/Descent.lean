import LetModules.Proofs.Tree.Sound
import Mathlib.Data.List.Infix

/-!
Walking down from a directory. In a directory where names tell things apart, every directory below
is reached by the names on its path and by no others (`descend_eq_some_iff`).
-/

namespace LetModules

/-- Where keys are distinct, one entry has a key at most. -/
theorem length_filter_le_one_of_nodup [DecidableEq κ] {key : α → κ} {entries : List α}
    (distinct : (entries.map key).Nodup) (k : κ) : (entries.filter (key · = k)).length ≤ 1 := by
  have once := List.nodup_iff_count_le_one.mp distinct k
  rw [List.count_eq_countP, List.countP_map, List.countP_eq_length_filter] at once
  exact once

/-- Of entries that pass a test which one passes at most, the search finds that one. -/
theorem find?_eq_some_iff_of_length_le_one {p : α → Bool} {entries : List α}
    (one : (entries.filter p).length ≤ 1) {a : α} :
    entries.find? p = some a ↔ a ∈ entries ∧ p a = true := by
  rw [← List.head?_filter, ← List.mem_filter]
  match entries.filter p, one with
  | [], _ => simp
  | [b], _ => simp [eq_comm]

/-- What the search finds is then all that passes. -/
theorem toList_find?_of_length_le_one {p : α → Bool} {entries : List α}
    (one : (entries.filter p).length ≤ 1) : (entries.find? p).toList = entries.filter p := by
  rw [← List.head?_filter]
  match entries.filter p, one with
  | [], _ => rfl
  | [_], _ => rfl

/-- Where keys are distinct, a search by key finds the one entry with the key. -/
theorem find?_eq_some_iff_of_nodup [DecidableEq κ] {key : α → κ} {entries : List α}
    (distinct : (entries.map key).Nodup) {k : κ} {a : α} :
    entries.find? (key · = k) = some a ↔ a ∈ entries ∧ key a = k := by
  rw [find?_eq_some_iff_of_length_le_one (length_filter_le_one_of_nodup distinct k),
    decide_eq_true_eq]

namespace Directory

variable {d e : Directory}

theorem child?_eq_some_iff (distinct : d.Distinct) {name : String} {child : Directory} :
    d.child? name = some child ↔ child ∈ d.children ∧ child.name = name :=
  find?_eq_some_iff_of_nodup distinct.children

theorem fold?_eq_some_iff (distinct : d.Distinct) {m : Module} :
    d.fold? = some m ↔ m ∈ d.modules ∧ m.folds = true :=
  find?_eq_some_iff_of_length_le_one distinct.fold

theorem mem_plain {m : Module} : m ∈ d.plain ↔ m ∈ d.modules ∧ m.folds = false := by
  simp [plain]

theorem plain?_eq_some_iff (distinct : d.Distinct) {name : String} {m : Module} :
    d.plain? name = some m ↔ (m ∈ d.modules ∧ m.folds = false) ∧ m.name = name := by
  rw [← mem_plain]
  exact find?_eq_some_iff_of_nodup distinct.plain

/-- A listing leaves no module out: one folds the directory at most. -/
theorem listing_perm (distinct : d.Distinct) : d.listing.Perm d.modules := by
  rw [listing, fold?, toList_find?_of_length_le_one distinct.fold, plain]
  exact List.perm_append_comm.trans (List.filter_append_perm _ _)

/-- The directory that the names lead to, one level each. -/
def descend (d : Directory) : List String → Option Directory
  | [] => some d
  | name :: rest => (d.child? name).bind fun child => child.descend rest

theorem descend_append (d : Directory) : ∀ first second : List String,
    d.descend (first ++ second) = (d.descend first).bind fun e => e.descend second
  | [], _ => rfl
  | name :: rest, second => by
    rw [List.cons_append, descend, descend]
    cases d.child? name with
    | none => rfl
    | some child => exact descend_append child rest second

/-- A directory whose whole subtree is shaped and unambiguous. -/
structure Orderly (d : Directory) : Prop where
  shaped : ∀ e ∈ d.subtree, e.Shaped
  distinct : ∀ e ∈ d.subtree, e.Distinct

namespace Orderly

theorem below (orderly : d.Orderly) (mem : e ∈ d.subtree) : e.Orderly where
  shaped := fun f hf => orderly.shaped f (mem_subtree_trans mem hf)
  distinct := fun f hf => orderly.distinct f (mem_subtree_trans mem hf)

theorem child (orderly : d.Orderly) {c : Directory} (mem : c ∈ d.children) : c.Orderly :=
  orderly.below (mem_subtree_of_child mem (mem_subtree_self c))

theorem shaped_self (orderly : d.Orderly) : d.Shaped := orderly.shaped d (mem_subtree_self d)

theorem distinct_self (orderly : d.Orderly) : d.Distinct := orderly.distinct d (mem_subtree_self d)

end Orderly

/-- What lies below a directory lies in its package, under its root, and has a longer path. -/
theorem fields_of_mem_subtree (orderly : d.Orderly) (mem : e ∈ d.subtree) :
    e.package = d.package ∧ e.root = d.root ∧ d.path <+: e.path := by
  induction d using Directory.induction with
  | step d ih =>
    rcases mem_subtree.mp mem with rfl | ⟨child, hc, he⟩
    · exact ⟨rfl, rfl, List.prefix_rfl⟩
    · obtain ⟨package, root, path⟩ := ih child hc (orderly.child hc) he
      have shaped := orderly.shaped_self
      refine ⟨package.trans (shaped.package child hc), root.trans (shaped.root child hc), ?_⟩
      exact (List.prefix_append _ _).trans (shaped.path child hc ▸ path)

/-- The names on its path lead to a directory, and no others do. -/
theorem descend_eq_some_iff (orderly : d.Orderly) {names : List String} :
    d.descend names = some e ↔ e ∈ d.subtree ∧ e.path = d.path ++ names := by
  induction d using Directory.induction generalizing names with
  | step d ih =>
    have distinct := orderly.distinct_self
    have shaped := orderly.shaped_self
    constructor
    · intro found
      cases names with
      | nil =>
        obtain rfl : d = e := Option.some.inj found
        exact ⟨mem_subtree_self d, (List.append_nil _).symm⟩
      | cons name rest =>
        obtain ⟨child, named, rest_found⟩ := Option.bind_eq_some_iff.mp found
        obtain ⟨hc, rfl⟩ := (child?_eq_some_iff distinct).mp named
        obtain ⟨mem, path⟩ := (ih child hc (orderly.child hc)).mp rest_found
        refine ⟨mem_subtree_of_child hc mem, ?_⟩
        rw [path, shaped.path child hc, List.append_assoc, List.singleton_append]
    · rintro ⟨mem, path⟩
      rcases mem_subtree.mp mem with rfl | ⟨child, hc, he⟩
      · obtain rfl : names = [] := List.append_right_eq_self.mp path.symm
        rfl
      · obtain ⟨rest, longer⟩ := (fields_of_mem_subtree (orderly.child hc) he).2.2
        rw [shaped.path child hc, List.append_assoc, path, List.append_cancel_left_eq] at longer
        subst longer
        rw [List.singleton_append, descend, (child?_eq_some_iff distinct).mpr ⟨hc, rfl⟩]
        refine (ih child hc (orderly.child hc)).mpr ⟨he, ?_⟩
        rw [path, shaped.path child hc, List.append_assoc]

/-- Below a directory, a path names one directory at most. -/
theorem eq_of_path_eq (orderly : d.Orderly) {f : Directory} (he : e ∈ d.subtree)
    (hf : f ∈ d.subtree) (same : e.path = f.path) : e = f := by
  obtain ⟨names, path⟩ := (fields_of_mem_subtree orderly he).2.2
  have toE := (descend_eq_some_iff orderly).mpr ⟨he, path.symm⟩
  have toF := (descend_eq_some_iff orderly).mpr ⟨hf, same ▸ path.symm⟩
  exact Option.some.inj (toE.symm.trans toF)

end Directory

end LetModules
