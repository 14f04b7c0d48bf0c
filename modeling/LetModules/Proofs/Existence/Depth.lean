import LetModules.Proofs.Existence
import LetModules.Proofs.Tree.Ancestry

/-!
Existence at any depth. The search for something that exists goes down one directory at a time, and
at a folded directory goes on with the module that folds it; still it comes to every module that
lies at or below the start, through folded directories and through others
(`hasModule_iff_exists_shown`). "Below" is said by the parents that the directories name, upwards
from the module that is found.
-/

namespace LetModules

open Relation (ReflTransGen)

namespace ModuleTree

/-- What the existence of `m` rests on: itself alone, or, if it folds a directory, the modules whose
directory is that one or lies at any depth below it. -/
def RestsOn (tree : ModuleTree) (m x : Module) : Prop :=
  if m.folds then ReflTransGen tree.LiesIn x.directory m.directory else x = m

namespace Sound

variable {tree : ModuleTree} (sound : tree.Sound)

include sound

theorem restsOn_iff {m x : Module} (hm : m ∈ tree.modules) (hx : x ∈ tree.modules) :
    tree.RestsOn m x ↔ x = m ∨ m.folds = true ∧ m.Encloses x := by
  rw [RestsOn]
  cases m.folds with
  | false => simp
  | true =>
    rw [if_pos rfl, ← sound.encloses_iff_liesIn hm hx]
    have self : x = m → m.Encloses x := fun same => same ▸ ⟨rfl, rfl, List.prefix_rfl⟩
    simp only [true_and]
    exact ⟨.inr, fun either => either.elim self id⟩

end Sound

end ModuleTree

/-- A module exists for a requester if among the modules that its existence rests on there is the
requester, or one that exports something visible to the requester. So where a module exists, each
module exists that folds one of the directories around it. -/
theorem hasModule_iff_exists_shown (sources : List PackageSource) (registry : Registry)
    (pairings : Pairings) (exports : Exports) {m r : Module}
    (hm : m ∈ (Growth.ofSources sources).tree.modules) :
    let tree := (Growth.ofSources sources).tree
    let linked : Linked := ⟨⟨tree, registry, pairings⟩, exports⟩
    (linked.hasModule m r = true ↔ ∃ x ∈ tree.modules, tree.RestsOn m x ∧
      (x.id = r.id ∨ ∃ e ∈ exports.ofModule pairings x, tree.visible e.published r = true)) ∧
    (linked.hasModule m r = true → ∀ outer ∈ tree.modules, outer.folds = true →
      ReflTransGen tree.LiesIn m.directory outer.directory → linked.hasModule outer r = true) := by
  intro tree linked
  have sound : linked.tree.Sound := Growth.sound_ofSources sources
  have shows : ∀ x, linked.Shows r x ↔
      x.id = r.id ∨ ∃ e ∈ exports.ofModule pairings x, tree.visible e.published r = true :=
    fun x => or_congr_right List.any_eq_true
  simp only [← shows]
  refine ⟨?_, fun found outer ho folds up => ?_⟩
  · rw [sound.hasModule_iff hm r]
    refine exists_congr fun x => and_congr_right fun hx => and_congr_left fun _ => ?_
    exact (sound.restsOn_iff hm hx).symm
  · obtain ⟨x, hx, rests, shown⟩ := (sound.hasModule_iff hm r).mp found
    have around : outer.Encloses m := (sound.encloses_iff_liesIn ho hm).mpr up
    refine (sound.hasModule_iff ho r).mpr ⟨x, hx, .inr ⟨folds, ?_⟩, shown⟩
    rcases rests with rfl | ⟨-, within⟩
    · exact around
    · exact ⟨around.1.trans within.1, around.2.1.trans within.2.1, around.2.2.trans within.2.2⟩

namespace Nested

/-- A folded directory with a directory in it that is not folded; only the module in there exports
something. -/
def sample : List PackageSource :=
  let lock : ModuleSource := ⟨"Lock", none, [⟨"code", .internal, .function, none, none⟩], []⟩
  let vault : DirectorySource :=
    ⟨"Vault", [⟨"Vault", none, [], []⟩], [⟨"Inner", [lock], []⟩]⟩
  [⟨"app", [], ⟨"src", [⟨"Main", none, [], []⟩], [vault]⟩, none⟩]

def main : Module := ⟨⟨0⟩, "Main", ["Main"], ⟨0⟩, ⟨0⟩, .source, false, [], [], none⟩

def vault : Module := ⟨⟨1⟩, "Vault", ["Vault"], ⟨1⟩, ⟨0⟩, .source, true, [], [], none⟩

def lock : Module :=
  ⟨⟨2⟩, "Lock", ["Vault", "Inner", "Lock"], ⟨2⟩, ⟨0⟩, .source, false,
    [⟨⟨"code", .internal, .function, none, none⟩, ⟨0⟩, ⟨2⟩⟩], [], none⟩

/-- In the sample `Vault` exists for `Main`, because `Lock` shows itself two levels below. -/
theorem hasModule_iff_exists_shown_sample :
    let tree := (Growth.ofSources sample).tree
    let scope : Scope := ⟨tree, .ofTree tree, []⟩
    let linked : Linked := ⟨scope, (Exports.ofScope scope).1⟩
    linked.hasModule vault main = true ∧ ∃ x ∈ tree.modules, tree.RestsOn vault x ∧
      (x.id = main.id ∨ ∃ e ∈ linked.exports.ofModule linked.pairings x,
        tree.visible e.published main = true) := by
  intro tree scope linked
  have hv : vault ∈ tree.modules := by decide +kernel
  have hl : lock ∈ tree.modules := by decide +kernel
  have found : linked.hasModule lock main = true := by decide +kernel
  have parent : (tree.directory? ⟨2⟩).map (·.parent) = some (some ⟨1⟩) := by decide +kernel
  have up : ReflTransGen tree.LiesIn lock.directory vault.directory :=
    .single (Option.map_eq_some_iff.mp parent)
  have outer : linked.hasModule vault main = true :=
    (hasModule_iff_exists_shown sample _ _ _ hl).2 found vault hv rfl up
  exact ⟨outer, (hasModule_iff_exists_shown sample _ _ _ hv).1.mp outer⟩

end Nested

end LetModules
