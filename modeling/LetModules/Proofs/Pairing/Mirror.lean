import LetModules.Proofs.Binding.Found
import LetModules.Proofs.Binding.Sites
import LetModules.Proofs.Pairing.Matching
import LetModules.Proofs.Visibility

/-!
Where the module of a test stands, and what the test gains. A test is paired with the module at its
mirrored place, or with one that has the path of the test's directory and its name. The latter is
meant to be the module that folds the mirrored directory, but a plain module has that path as well
if there is no such directory or it is not folded (`mirrored_ofSources`). Through pairs, and in no
other way, a module comes to private declarations of another one.
-/

namespace LetModules

/-- Where the production module stands with which a test of the module `name` is paired. -/
inductive ModuleTree.Mirrors (tree : ModuleTree) (test production : Module) (name : String) : Prop
  /-- At the name, in the mirror of the directory of the test. -/
  | inside (path : production.path = test.path.dropLast ++ [name])
  /-- Nothing is there, and it folds the mirror of that directory, which has the name. -/
  | folding
      (absent : ∀ m ∈ tree.modules, m.root = .source → m.package = test.package →
        m.path ≠ test.path.dropLast ++ [name])
      (last : test.path.dropLast.getLast? = some name) {d : Directory} (mem : d ∈ tree.directories)
      (held : production ∈ d.modules) (folds : production.folds = true)
      (path : d.path = test.path.dropLast)
  /-- Nothing is there, and it is a plain module beside the mirror of that directory. -/
  | plain
      (absent : ∀ m ∈ tree.modules, m.root = .source → m.package = test.package →
        m.path ≠ test.path.dropLast ++ [name])
      (last : test.path.dropLast.getLast? = some name) {d : Directory} (mem : d ∈ tree.directories)
      (held : production ∈ d.modules) (unfolded : production.folds = false)
      (named : production.name = name) (path : d.path = test.path.dropLast.dropLast)

namespace Pairing

variable {tree : ModuleTree} {settings : Settings}

/-- What a test claims mirrors it. -/
theorem Claimant.mirrors (sound : tree.Sound) {test production : Module}
    (claimant : Claimant tree settings production test) : ∃ name, name ≠ "" ∧
      test.name = name ++ settings.testSuffix ∧ tree.Mirrors test production name := by
  obtain ⟨name, some_name, suffixed, path | ⟨absent, last, path⟩⟩ := claimant.named
  · exact ⟨name, some_name, suffixed, .inside path⟩
  · refine ⟨name, some_name, suffixed, ?_⟩
    obtain ⟨d, hd, -, held, sits⟩ := sound.exists_directory claimant.isProduction.1
    have place := path.symm.trans sits.path
    cases folds : production.folds with
    | true =>
      rw [folds, if_pos rfl] at place
      exact .folding absent last hd held folds place.symm
    | false =>
      rw [folds, if_neg (by simp)] at place
      rw [place, List.getLast?_concat, Option.some.injEq] at last
      refine .plain absent (place ▸ List.getLast?_concat.trans (congrArg some last)) hd held folds
        last ?_
      rw [place, List.dropLast_concat]

end Pairing

/-- A private declaration is accessible to its owner and to the test that is paired with it. -/
theorem Scope.Sound.accessible_private_iff {scope : Scope} (sound : scope.Sound)
    {exports : Exports} {owner m : Module} (ho : owner ∈ scope.tree.modules)
    (hm : m ∈ scope.tree.modules) {d : Declaration} (declared : d ∈ owner.declarations)
    (hidden : d.tier = .private) :
    Linked.accessible ⟨scope, exports⟩ d m = true ↔ owner = m ∨ ⟨m, owner⟩ ∈ scope.pairings := by
  rw [Linked.accessible, Bool.or_eq_true, sound.tree.owner_eq ho declared,
    sound.isPrivileged_iff hm ho, sound.tree.visible_iff ho hm declared, hidden, Tier.Admits,
    or_false, or_comm]

namespace Resolution

/-- Each test mirrors the module that it is paired with. Private declarations are accessible to
their owners and through pairs only, and through pairs only they are imported. -/
structure Mirrored (settings : Settings) (r : Resolution) : Prop where
  pairs : ∀ pair ∈ r.pairings, (pair.test.root = .test ∧ pair.production.root = .source ∧
    pair.production.package = pair.test.package) ∧ ∃ name, name ≠ "" ∧
      pair.test.name = name ++ settings.testSuffix ∧
        r.tree.Mirrors pair.test pair.production name
  access : ∀ owner ∈ r.tree.modules, ∀ d ∈ owner.declarations, d.tier = .private →
    ∀ m ∈ r.tree.modules, r.accessible d m = true ↔ owner = m ∨ ⟨m, owner⟩ ∈ r.pairings
  imports : ∀ site b, (site, .ok b) ∈ r.bindings → b.via.tier = .private →
    ∃ m ∈ r.tree.modules, m.id = site.module ∧ ⟨m, b.target⟩ ∈ r.pairings

/-- In every resolution of packages, tests are paired with what they mirror, and private
declarations stay with their owners and the tests of these. -/
theorem mirrored_ofSources (settings : Settings) (sources : List PackageSource) :
    (ofSources settings sources).Mirrored settings := by
  have sound := sound_ofSources settings sources
  constructor
  case pairs =>
    intro pair mem
    have fits := sound.pairs pair mem
    refine ⟨⟨fits.isTest, fits.isProduction, fits.package⟩, ?_⟩
    obtain ⟨⟨there, root⟩, claim, -⟩ := (Pairing.mem_pairs_ofTree_iff sound.tree).mp mem
    exact ((Pairing.claimed?_eq_some_iff sound.tree there root).mp claim).mirrors sound.tree
  case access =>
    exact fun owner ho d declared hidden m hm => sound.accessible_private_iff ho hm declared hidden
  case imports =>
    intro site b mem hidden
    obtain ⟨m, hm, statement, item, same, -, -, bound⟩ := (mem_bindings_iff settings sources).mp mem
    obtain ⟨target, found, binding⟩ := Linked.result_eq_ok_iff.mp bound.symm
    have ht := sound.locate_mem hm (Linked.target_eq_ok_iff.mp found).1
    obtain ⟨_, -, -, -, sits⟩ := sound.tree.exists_directory ht
    obtain ⟨via, origin, finds, rfl⟩ := (Linked.bind_eq_ok_iff sits.distinct).mp binding
    refine ⟨m, hm, same.symm, (sound.isPrivileged_iff hm ht).mp ?_⟩
    exact finds.permitted.resolve_right fun ⟨⟨offered, _⟩, _⟩ => offered hidden

/-- A plain module with a private declaration, and a test in a directory of its name. -/
def unfoldedSample : List PackageSource :=
  let format : ModuleSource := ⟨"Format", none, [⟨"pad", .private, .function, none, none⟩], []⟩
  let formatTest : ModuleSource :=
    ⟨"FormatTest", none, [], [⟨⟨["Format"], none⟩, [⟨"pad", none, none⟩], none⟩]⟩
  [⟨"app", [], ⟨"src", [format], []⟩, some ⟨"test", [], [⟨"Format", [formatTest], []⟩]⟩⟩]

/-- In the sample the test has neither the place of the module nor that of one that folds its
directory, for `Format` folds nothing; and yet it is paired with it and imports what is private. -/
theorem paired_with_plain :
    let r := ofSources .standard unfoldedSample
    ∃ test ∈ r.tree.modules, ∃ production ∈ r.tree.modules, ⟨test, production⟩ ∈ r.pairings ∧
      test.path = ["Format", "FormatTest"] ∧ production.path = ["Format"] ∧
        production.folds = false ∧ (∀ d ∈ r.tree.directories, d.root = .source → d.path = []) ∧
          ∃ pad ∈ production.declarations, pad.tier = .private ∧
            r.bindings = [(⟨test.id, 0, 0⟩, .ok ⟨"pad", "pad", pad, pad, production, none⟩)] := by
  let pad : Declaration := ⟨⟨"pad", .private, .function, none, none⟩, ⟨0⟩, ⟨0⟩⟩
  let format : Module := ⟨⟨0⟩, "Format", ["Format"], ⟨0⟩, ⟨0⟩, .source, false, [pad], [], none⟩
  let test : Module := ⟨⟨1⟩, "FormatTest", ["Format", "FormatTest"], ⟨2⟩, ⟨0⟩, .test, false, [],
    [⟨⟨["Format"], none⟩, [⟨"pad", none, none⟩], none⟩], none⟩
  refine ⟨test, ?_, format, ?_, ?_, rfl, rfl, rfl, ?_, pad, ?_, rfl, ?_⟩
  all_goals decide +kernel

end Resolution

end LetModules
