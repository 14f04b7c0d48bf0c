import LetModules.Existence
import LetModules.Proofs.Scope.Region

/-!
Existence in one sentence: a module exists for a requester if it, or some module in or below the
directory that it folds, is the requester or exports something that the requester sees
(`hasModule_iff`).
-/

namespace LetModules

/-- The module is the requester, or exports something that the requester sees. -/
def Linked.Shows (linked : Linked) (requester m : Module) : Prop :=
  m.id = requester.id ∨ linked.showsExport requester m = true

namespace Existence

variable {linked : Linked} {requester : Module}

theorem answer_iff {m : Module} {deeper : Bool} :
    answer linked requester m deeper = true ↔ linked.Shows requester m ∨ deeper = true := by
  rw [answer, Bool.or_eq_true, Bool.or_eq_true, decide_eq_true_eq, Linked.Shows]

theorem belowAny_iff : ∀ directories : List Directory,
    belowAny linked requester directories = true ↔ ∃ child ∈ directories,
      (∃ m, child.fold? = some m ∧ linked.Shows requester m) ∨
        below linked requester child = true
  | [] => by simp [belowAny]
  | child :: rest => by
    rw [belowAny, Bool.or_eq_true, belowAny_iff rest]
    simp only [List.mem_cons, exists_eq_or_imp]
    refine or_congr_left ?_
    cases child.fold? with
    | none => simp
    | some m => simp [answer_iff]

theorem below_eq (d : Directory) : below linked requester d =
    (d.plain.any (answer linked requester · false) || belowAny linked requester d.children) := by
  cases d
  rw [below]

/-- In or below a directory something shows itself, other than by folding that directory. -/
theorem below_iff {d : Directory} (orderly : d.Orderly) :
    below linked requester d = true ↔
      ∃ m, linked.Shows requester m ∧ ((m ∈ d.modules ∧ m.folds = false) ∨
        ∃ child ∈ d.children, ∃ e ∈ child.subtree, m ∈ e.modules) := by
  induction d using Directory.induction with
  | step d ih =>
    have plain : d.plain.any (answer linked requester · false) = true ↔
        ∃ m, linked.Shows requester m ∧ m ∈ d.modules ∧ m.folds = false := by
      simp only [List.any_eq_true, answer_iff, Directory.mem_plain, Bool.false_eq_true, or_false]
      exact exists_congr fun m => and_comm
    -- what is in or below a child shows itself as its fold or as something else
    have child_iff : ∀ child ∈ d.children,
        ((∃ m, child.fold? = some m ∧ linked.Shows requester m) ∨
          below linked requester child = true) ↔
            ∃ m, linked.Shows requester m ∧ ∃ e ∈ child.subtree, m ∈ e.modules := by
      intro child hc
      have within := orderly.child hc
      rw [ih child hc within]
      simp only [Directory.fold?_eq_some_iff within.distinct_self]
      constructor
      · rintro (⟨m, ⟨hm, -⟩, seen⟩ | ⟨m, seen, ⟨hm, -⟩ | ⟨c, hc', e, he, hm⟩⟩)
        · exact ⟨m, seen, child, child.mem_subtree_self, hm⟩
        · exact ⟨m, seen, child, child.mem_subtree_self, hm⟩
        · exact ⟨m, seen, e, Directory.mem_subtree_of_child hc' he, hm⟩
      · rintro ⟨m, seen, e, he, hm⟩
        rcases Directory.mem_subtree.mp he with rfl | ⟨c, hc', he⟩
        · cases folds : m.folds with
          | true => exact .inl ⟨m, ⟨hm, folds⟩, seen⟩
          | false => exact .inr ⟨m, seen, .inl ⟨hm, folds⟩⟩
        · exact .inr ⟨m, seen, .inr ⟨c, hc', e, he, hm⟩⟩
    rw [below_eq, Bool.or_eq_true, plain, belowAny_iff]
    constructor
    · rintro (⟨m, seen, here⟩ | ⟨child, hc, there⟩)
      · exact ⟨m, seen, .inl here⟩
      · obtain ⟨m, seen, e, he, hm⟩ := (child_iff child hc).mp there
        exact ⟨m, seen, .inr ⟨child, hc, e, he, hm⟩⟩
    · rintro ⟨m, seen, here | ⟨child, hc, e, he, hm⟩⟩
      · exact .inl ⟨m, seen, here⟩
      · exact .inr ⟨child, hc, (child_iff child hc).mpr ⟨m, seen, e, he, hm⟩⟩

end Existence

namespace ModuleTree.Sound

variable {linked : Linked} (sound : linked.tree.Sound)

include sound

/-- A module exists for a requester if it shows itself, or if it folds a directory and something in
or below that shows itself. -/
theorem hasModule_iff {m : Module} (mem : m ∈ linked.tree.modules) (requester : Module) :
    linked.hasModule m requester = true ↔ ∃ k ∈ linked.tree.modules,
      (k = m ∨ m.folds = true ∧ m.Encloses k) ∧ linked.Shows requester k := by
  rw [Linked.hasModule, Existence.answer_iff, Linked.folded?]
  cases folds : m.folds with
  | false =>
    simp only [Bool.false_eq_true, if_false, or_false, false_and]
    exact ⟨fun seen => ⟨m, mem, rfl, seen⟩, fun ⟨_, _, same, seen⟩ => same ▸ seen⟩
  | true =>
    obtain ⟨d, hd, found, here, sits⟩ := sound.exists_directory mem
    have encloses : ∀ {e k}, e ∈ linked.tree.directories → k ∈ e.modules →
        (m.Encloses k ↔ e ∈ d.subtree) := by
      intro e k he hk
      have sits' := sound.sits he hk
      rw [sound.mem_subtree_iff hd]
      simp only [he, true_and, Directory.Encloses, Module.Encloses, sits.package, sits.root,
        sits.directoryPath, sits'.package, sits'.root, sits'.directoryPath]
    simp only [if_true, found, Existence.below_iff (sound.orderly hd), true_and]
    constructor
    · rintro (seen | ⟨k, seen, ⟨hk, -⟩ | ⟨child, hc, e, he, hk⟩⟩)
      · exact ⟨m, mem, .inl rfl, seen⟩
      · exact ⟨k, sound.mem_modules.mpr ⟨d, hd, hk⟩,
          .inr ((encloses hd hk).mpr d.mem_subtree_self), seen⟩
      · have below := Directory.mem_subtree_of_child hc he
        have there := ((sound.mem_subtree_iff hd).mp below).1
        exact ⟨k, sound.mem_modules.mpr ⟨e, there, hk⟩, .inr ((encloses there hk).mpr below), seen⟩
    · rintro ⟨k, hk, rfl | inside, seen⟩
      · exact .inl seen
      · obtain ⟨e, he, hke⟩ := sound.mem_modules.mp hk
        rcases Directory.mem_subtree.mp ((encloses he hke).mp inside) with rfl | ⟨child, hc, below⟩
        · -- only `m` itself folds its directory
          cases folds' : k.folds with
          | true =>
            have distinct := sound.distinct e hd
            have one := (Directory.fold?_eq_some_iff distinct).mpr ⟨here, folds⟩
            have other := (Directory.fold?_eq_some_iff distinct).mpr ⟨hke, folds'⟩
            exact .inl (Option.some.inj (one.symm.trans other) ▸ seen)
          | false => exact .inr ⟨k, seen, .inl ⟨hke, folds'⟩⟩
        · exact .inr ⟨k, seen, .inr ⟨child, hc, e, below, hke⟩⟩

end ModuleTree.Sound

end LetModules
