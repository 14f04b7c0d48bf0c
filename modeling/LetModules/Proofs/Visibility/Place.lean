import LetModules.Proofs.Visibility

/-!
The visibility rule by places. Whether a protected declaration is seen is found out by looking for
the requester's directory in the subtree of the owner's. It shows in the paths of the two
directories as well, once both lie below one root of one package (`maySee_iff`). So the tiers are in
order: of two declarations of a module, the one with the wider tier is seen wherever the other is
(`MaySee.mono`).
-/

namespace LetModules

namespace Tier

/-- How wide a tier is: its place among all tiers. -/
def width (tier : Tier) : Nat := all.idxOf tier

end Tier

namespace ModuleTree

section Rule

variable (tree : ModuleTree) (owner requester : Module)

/-- The directory of the module has the path. -/
def LiesAt (m : Module) (names : List String) : Prop :=
  ∃ d, tree.directory? m.directory = some d ∧ d.path = names

/-- A module may see what `owner` declares with a tier. Directories with one path are told apart by
their packages and roots, so a protected declaration is never seen across roots. -/
inductive MaySee : Tier → Prop
  | own {tier : Tier} (same : requester = owner) : MaySee tier
  | «public» : MaySee .public
  | internal (package : requester.package = owner.package) : MaySee .internal
  | «protected» (package : requester.package = owner.package) (root : requester.root = owner.root)
      {above below : List String} (outer : tree.LiesAt owner above)
      (inner : tree.LiesAt requester below) (within : above <+: below) : MaySee .protected

/-- The declaration of `owner` is seen by those whom the rule names, and what `owner` declares with
a wider tier is seen by them too. -/
structure SeenByPlace (d : Declaration) : Prop where
  visible : tree.visible d requester = true ↔ tree.MaySee owner requester d.tier
  wider : ∀ e ∈ owner.declarations, d.tier.width ≤ e.tier.width →
    tree.visible d requester = true → tree.visible e requester = true

end Rule

variable {tree : ModuleTree} {owner requester : Module}

/-- Who may see something with one tier may see it with a wider one. -/
theorem MaySee.mono {narrow wide : Tier} (wider : narrow.width ≤ wide.width)
    (sees : tree.MaySee owner requester narrow) : tree.MaySee owner requester wide := by
  cases sees with
  | own same => exact .own same
  | «public» =>
    cases wide with
    | «public» => exact .public
    | _ => exact absurd wider (by decide)
  | internal package =>
    cases wide with
    | «public» => exact .public
    | internal => exact .internal package
    | _ => exact absurd wider (by decide)
  | «protected» package root outer inner within =>
    cases wide with
    | «public» => exact .public
    | internal => exact .internal package
    | «protected» => exact .protected package root outer inner within
    | «private» => exact absurd wider (by decide)

namespace Sound

variable (sound : tree.Sound)

include sound

/-- A module lies at the path of its directory, which its own path tells. -/
theorem liesAt_iff {m : Module} (hm : m ∈ tree.modules) {names : List String} :
    tree.LiesAt m names ↔ m.directoryPath = names := by
  obtain ⟨d, -, found, -, sits⟩ := sound.exists_directory hm
  rw [sits.directoryPath]
  constructor
  · rintro ⟨d', found', path⟩
    exact Option.some.inj (found.symm.trans found') ▸ path
  · exact fun path => ⟨d, found, path⟩

/-- The owner may see a declaration, and whom its tier admits. -/
theorem maySee_iff (ho : owner ∈ tree.modules) (hr : requester ∈ tree.modules) {tier : Tier} :
    tree.MaySee owner requester tier ↔ owner = requester ∨ tier.Admits owner requester := by
  constructor
  · rintro (same | _ | package | ⟨package, root, outer, inner, within⟩)
    · exact .inl same.symm
    · exact .inr trivial
    · exact .inr package.symm
    · obtain rfl := (sound.liesAt_iff ho).mp outer
      obtain rfl := (sound.liesAt_iff hr).mp inner
      exact .inr ⟨package.symm, root.symm, within⟩
  · rintro (same | admits)
    · exact .own same.symm
    · cases tier with
      | «private» => exact admits.elim
      | «protected» =>
        obtain ⟨package, root, within⟩ := admits
        exact .protected package.symm root.symm ((sound.liesAt_iff ho).mpr rfl)
          ((sound.liesAt_iff hr).mpr rfl) within
      | internal => exact .internal (Eq.symm admits)
      | «public» => exact .public

/-- A declaration is visible exactly to those who may see it. -/
theorem visible_iff_maySee (ho : owner ∈ tree.modules) (hr : requester ∈ tree.modules)
    {d : Declaration} (mem : d ∈ owner.declarations) :
    tree.visible d requester = true ↔ tree.MaySee owner requester d.tier := by
  rw [sound.visible_iff ho hr mem, sound.maySee_iff ho hr]

end Sound

/-- Every declaration of a grown tree is seen by place, by whoever asks. -/
theorem seenByPlace_ofSources (sources : List PackageSource) {d : Declaration}
    (mem : d ∈ (Growth.ofSources sources).tree.declarations) {requester : Module}
    (asks : requester ∈ (Growth.ofSources sources).tree.modules) :
    let tree := (Growth.ofSources sources).tree
    ∃ owner ∈ tree.modules, tree.module? d.owner = some owner ∧ d ∈ owner.declarations ∧
      tree.SeenByPlace owner requester d := by
  intro tree
  have sound : tree.Sound := Growth.sound_ofSources sources
  obtain ⟨owner, ho, owned, declared⟩ := sound.exists_owner mem
  refine ⟨owner, ho, owned, declared, sound.visible_iff_maySee ho asks declared, ?_⟩
  intro e declared' wider seen
  rw [sound.visible_iff_maySee ho asks declared] at seen
  exact (sound.visible_iff_maySee ho asks declared').mpr (seen.mono wider)

/-- A folded directory with a directory in it, and a test in a directory of the same path. -/
def placeSample : List PackageSource :=
  let shop : ModuleSource := ⟨"Shop", none, [⟨"stock", .protected, .function, none, none⟩], []⟩
  let file := fun name => (⟨name, none, [], []⟩ : ModuleSource)
  let cart : DirectorySource := ⟨"Cart", [file "Item"], []⟩
  let sources : DirectorySource := ⟨"src", [file "Main"], [⟨"Shop", [shop], [cart]⟩]⟩
  [⟨"app", [], sources, some ⟨"test", [], [⟨"Shop", [file "Till"], []⟩]⟩⟩]

/-- In the sample the protected declaration of `Shop` is seen by `Item`, from the directory below,
and not by `Main`, from the one above, nor by `Till`, from the one of the same path among the
tests. -/
theorem seenByPlace_sample :
    let tree := (Growth.ofSources placeSample).tree
    let stock : Declaration := ⟨⟨"stock", .protected, .function, none, none⟩, ⟨0⟩, ⟨1⟩⟩
    let file := fun id name path directory root =>
      (⟨⟨id⟩, name, path, ⟨directory⟩, ⟨0⟩, root, false, [], [], none⟩ : Module)
    let main := file 0 "Main" ["Main"] 0 .source
    let item := file 2 "Item" ["Shop", "Cart", "Item"] 2 .source
    let till := file 3 "Till" ["Shop", "Till"] 4 .test
    (stock ∈ tree.declarations ∧ main ∈ tree.modules ∧ item ∈ tree.modules ∧ till ∈ tree.modules) ∧
      ∃ owner ∈ tree.modules, tree.module? stock.owner = some owner ∧
        tree.MaySee owner item .protected ∧ ¬ tree.MaySee owner main .protected ∧
          ¬ tree.MaySee owner till .protected := by
  intro tree stock file main item till
  have hs : stock ∈ tree.declarations := by decide +kernel
  have hm : main ∈ tree.modules := by decide +kernel
  have hi : item ∈ tree.modules := by decide +kernel
  have ht : till ∈ tree.modules := by decide +kernel
  obtain ⟨owner, ho, owned, -, byItem⟩ := seenByPlace_ofSources placeSample hs hi
  obtain ⟨_, -, owned', -, byMain⟩ := seenByPlace_ofSources placeSample hs hm
  obtain rfl := Option.some.inj (owned.symm.trans owned')
  obtain ⟨_, -, owned', -, byTill⟩ := seenByPlace_ofSources placeSample hs ht
  obtain rfl := Option.some.inj (owned.symm.trans owned')
  have seen : tree.visible stock item = true := by decide +kernel
  have above : tree.visible stock main = false := by decide +kernel
  have tests : tree.visible stock till = false := by decide +kernel
  refine ⟨⟨hs, hm, hi, ht⟩, owner, ho, owned, byItem.visible.mp seen, fun sees => ?_,
    fun sees => ?_⟩
  · exact Bool.false_ne_true (above.symm.trans (byMain.visible.mpr sees))
  · exact Bool.false_ne_true (tests.symm.trans (byTill.visible.mpr sees))

end ModuleTree

end LetModules
