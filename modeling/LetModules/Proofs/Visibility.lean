import LetModules.Proofs.Tree.Ancestry
import LetModules.Visibility

/-!
The visibility rule without ids: what a declaration's tier demands of the packages, roots and
directories of its owner and of the requester.
-/

namespace LetModules

/-- What the tier of a declaration of `owner` demands of a requester other than the owner. -/
def Tier.Admits (tier : Tier) (owner requester : Module) : Prop :=
  match tier with
  | .private => False
  | .protected => owner.Encloses requester
  | .internal => owner.package = requester.package
  | .public => True

namespace ModuleTree.Sound

variable {tree : ModuleTree} (sound : tree.Sound)

include sound

/-- A declaration is visible to its owner and to whom its tier admits. -/
theorem visible_iff {owner requester : Module} (ho : owner ∈ tree.modules)
    (hr : requester ∈ tree.modules) {d : Declaration} (mem : d ∈ owner.declarations) :
    tree.visible d requester = true ↔ owner = requester ∨ d.tier.Admits owner requester := by
  have same : d.owner = requester.id ↔ owner = requester := by
    rw [sound.owner_eq ho mem]
    exact ⟨sound.module_inj ho hr, congrArg _⟩
  rw [visible, sound.module?_owner ho mem]
  by_cases own : owner = requester
  · rw [if_pos (same.mpr own)]
    exact iff_of_true rfl (.inl own)
  · rw [if_neg (mt same.mp own)]
    dsimp only
    cases d.tier with
    | «private» => simp [own, Tier.Admits]
    | «protected» =>
      rw [Bool.and_eq_true, decide_eq_true_eq, sound.isWithin_iff ho hr]
      simp only [own, false_or, Tier.Admits]
      exact and_iff_right_of_imp And.left
    | internal => simp [own, Tier.Admits]
    | «public» => simp [own, Tier.Admits]

end ModuleTree.Sound

end LetModules
