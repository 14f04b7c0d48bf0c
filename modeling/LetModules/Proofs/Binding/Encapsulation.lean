import LetModules.Proofs.Binding.Found
import LetModules.Proofs.Binding.Sites
import LetModules.Proofs.Reexport.Origin
import LetModules.Proofs.Visibility

/-!
Encapsulation of imports. What an importer can be bound to is limited by where the path may lead, by
what the target exports and to whom, and along re-exports by the same limits at each link; only a
paired test goes past the exports, and only in the module that it tests.
-/

namespace LetModules

open Relation (ReflTransGen)

/-- What a binding never leaks: `b` is a binding of `importer`, and `owner` has the concrete
declaration. -/
structure Encapsulated (r : Resolution) (importer owner : Module) (b : Binding) : Prop where
  target : b.target ∈ r.tree.modules
  declared : b.via ∈ b.target.declarations
  named : b.via.name = b.imported
  elsewhere : b.target ≠ importer
  origin : r.exports.originOf b.via = some b.declaration
  /-- Without a pairing, the importer sees what it goes through. -/
  unpaired : ⟨importer, b.target⟩ ∉ r.pairings →
    b.via.tier ≠ .private ∧ r.tree.visible b.via importer = true
  /-- A private declaration is bound only in the test of its own module. -/
  concealed : b.declaration.tier = .private → ⟨importer, owner⟩ ∈ r.pairings
  /-- Of another package, a direct dependency, only what is public in production is imported. -/
  foreign : b.target.package ≠ importer.package →
    (∃ p ∈ r.tree.packages, ∃ q ∈ r.tree.packages, p.id = importer.package ∧
      q.id = b.target.package ∧ q.name ∈ p.dependencies) ∧
        b.via.tier = .public ∧ b.target.root = .source
  /-- Tests are used by tests of their package only. -/
  tests : ∀ m, m = b.target ∨ m = owner → m.root = .test →
    importer.root = .test ∧ importer.package = m.package
  /-- Entry points are never imported. -/
  entryPoints : r.pairings.isEntryPoint b.via = false ∧
    r.pairings.isEntryPoint b.declaration = false

namespace Scope.Sound

open Reexport

variable {scope : Scope} (sound : scope.Sound)

include sound

/-- A path leads to a test only from a test of the same package. -/
theorem isTest_of_locate {importer target : Module} {path : ModulePath}
    (mem : importer ∈ scope.tree.modules) (found : scope.locate path importer = .ok target)
    (test : target.root = .test) : importer.root = .test ∧ importer.package = target.package := by
  obtain ⟨-, ⟨package, root | root⟩ | ⟨-, root, -⟩⟩ := sound.locate_fields mem found
  · exact ⟨root.symm.trans test, package.symm⟩
  · exact absurd (root.symm.trans test) (by simp)
  · exact absurd (root.symm.trans test) (by simp)

/-- A link of a chain leads from a module to a declaration of another one in the tree. -/
theorem exists_link {m : Module} (hm : m ∈ scope.tree.modules) {d e : Declaration}
    (declared : d ∈ m.declarations) (leads : Leads scope d e) :
    ∃ path, ∃ n ∈ scope.tree.modules, scope.locate path m = .ok n ∧ e ∈ n.declarations ∧
      e.tier ≠ .private ∧ scope.pairings.isEntryPoint e = false := by
  obtain ⟨path, owner, target, link⟩ := leads
  obtain rfl := Option.some.inj ((sound.tree.module?_owner hm declared).symm.trans link.owned)
  have there := sound.locate_mem hm link.located
  exact ⟨path, target, there, link.located,
    ((sound.tree.declaration?_name_eq_some_iff there).mp link.published).1, link.notPrivate,
    link.notEntryPoint⟩

/-- A chain ends at its start or at a declaration that is offered; and if it ends in a test, it
starts in a test of the same package. -/
theorem exists_end {d o : Declaration} (chain : ReflTransGen (Leads scope) d o) :
    ∀ m ∈ scope.tree.modules, d ∈ m.declarations →
      ∃ n ∈ scope.tree.modules, o ∈ n.declarations ∧
        (o = d ∨ o.tier ≠ .private ∧ scope.pairings.isEntryPoint o = false) ∧
          (n.root = .test → m.root = .test ∧ m.package = n.package) := by
  induction chain using ReflTransGen.head_induction_on with
  | refl => exact fun m hm declared => ⟨m, hm, declared, .inl rfl, fun test => ⟨test, rfl⟩⟩
  | head leads _ ih =>
    intro m hm declared
    obtain ⟨path, k, hk, located, published, offered⟩ := sound.exists_link hm declared leads
    obtain ⟨n, hn, ends, kind, tests⟩ := ih k hk published
    refine ⟨n, hn, ends, .inr ?_, fun test => ?_⟩
    · rcases kind with rfl | kind
      · exact offered
      · exact kind
    · obtain ⟨test', package⟩ := tests test
      obtain ⟨test'', package'⟩ := sound.isTest_of_locate hm located test'
      exact ⟨test'', package'.trans package⟩

/-- Modules of different packages show each other only what is public. -/
theorem public_of_visible {owner requester : Module} (ho : owner ∈ scope.tree.modules)
    (hr : requester ∈ scope.tree.modules) {d : Declaration} (mem : d ∈ owner.declarations)
    (visible : scope.tree.visible d requester = true) (apart : owner.package ≠ requester.package) :
    d.tier = .public := by
  rcases (sound.tree.visible_iff ho hr mem).mp visible with rfl | admits
  · exact absurd rfl apart
  · cases tier : d.tier with
    | «private» => simp [tier, Tier.Admits] at admits
    | «protected» =>
      rw [tier] at admits
      exact absurd admits.1 apart
    | internal =>
      rw [tier] at admits
      exact absurd admits apart
    | «public» => rfl

/-- A module that is tested is a production module, and so has no entry points. -/
theorem isEntryPoint_of_paired {test m : Module} (pair : ⟨test, m⟩ ∈ scope.pairings)
    {d : Declaration} (declared : d ∈ m.declarations) :
    scope.pairings.isEntryPoint d = false := by
  have fits := sound.pairs _ pair
  have untested : ¬ scope.pairings.isPairedTest d.owner = true := by
    rw [sound.tree.owner_eq fits.production declared, sound.isPairedTest_iff fits.production]
    rintro ⟨other, tests⟩
    exact absurd (fits.isProduction.symm.trans (sound.pairs _ tests).isTest) (by simp)
  simp [Pairings.isEntryPoint, untested]

/-- What a module finds in one that it does not test is offered, and it sees it. -/
theorem offered_of_finds {exports : Exports} {importer target : Module} {name : String}
    {via origin : Declaration} (mem : importer ∈ scope.tree.modules)
    (ht : target ∈ scope.tree.modules)
    (finds : Linked.Finds ⟨scope, exports⟩ importer target name via origin)
    (apart : ⟨importer, target⟩ ∉ scope.pairings) :
    (via.tier ≠ .private ∧ scope.pairings.isEntryPoint via = false) ∧
      scope.tree.visible via importer = true := by
  have unprivileged : ¬ scope.pairings.isPrivileged importer.id target.id = true :=
    mt (sound.isPrivileged_iff mem ht).mp apart
  obtain ⟨offered, accessible⟩ := finds.permitted.resolve_left unprivileged
  rw [Linked.accessible, sound.tree.owner_eq ht finds.declared] at accessible
  exact ⟨offered, by simpa [unprivileged] using accessible⟩

end Scope.Sound

namespace Resolution

variable (settings : Settings) (sources : List PackageSource)

/-- What a module finds in the target of a statement is encapsulated. -/
theorem encapsulated_of_finds {importer target : Module} {path : ModulePath}
    (mem : importer ∈ (ofSources settings sources).tree.modules)
    (found : (ofSources settings sources).toLinked.target path importer = .ok target)
    {name : String} {via origin : Declaration}
    (finds : (ofSources settings sources).toLinked.Finds importer target name via origin)
    (localName : String) (span : Option Span) :
    ∃ owner ∈ (ofSources settings sources).tree.modules, origin ∈ owner.declarations ∧
      Encapsulated (ofSources settings sources) importer owner
        ⟨localName, name, origin, via, target, span⟩ := by
  have sound := sound_ofSources settings sources
  obtain ⟨located, elsewhere, -⟩ := Linked.target_eq_ok_iff.mp found
  have ht := sound.locate_mem mem located
  have inTree : via ∈ (ofSources settings sources).tree.declarations :=
    sound.tree.mem_declarations.mpr ⟨target, ht, finds.declared⟩
  obtain ⟨chain, -⟩ := (sound.originOf_eq_some_iff inTree).mp finds.origin
  obtain ⟨owner, ho, owned, ends, tests⟩ := sound.exists_end chain target ht finds.declared
  have unpaired := sound.offered_of_finds mem ht finds
  have entryPoint : (ofSources settings sources).pairings.isEntryPoint via = false := by
    by_cases together : ⟨importer, target⟩ ∈ (ofSources settings sources).pairings
    · exact sound.isEntryPoint_of_paired together finds.declared
    · exact (unpaired together).1.2
  refine ⟨owner, ho, owned, ht, finds.declared, finds.named, fun same => elsewhere (same ▸ rfl),
    finds.origin, fun apart => ⟨(unpaired apart).1.1, (unpaired apart).2⟩, fun concealed => ?_,
    fun apart => ?_, ?_, entryPoint, ?_⟩
  · -- only the start of a chain can be private, and then the importer is the test of its module
    obtain rfl := ends.resolve_right fun offered => offered.1 concealed
    have same : owner = target := sound.tree.module_inj ho ht <|
      (sound.tree.owner_eq ho owned).symm.trans (sound.tree.owner_eq ht finds.declared)
    by_contra apart
    exact (unpaired (same ▸ apart)).1.1 concealed
  · obtain ⟨-, ⟨package, -⟩ | ⟨-, root, depends⟩⟩ := sound.locate_fields mem located
    · exact absurd package apart
    · refine ⟨depends, ?_, root⟩
      have alone : ⟨importer, target⟩ ∉ (ofSources settings sources).pairings :=
        fun together => apart (sound.pairs _ together).package
      exact sound.public_of_visible ht mem finds.declared (unpaired alone).2 apart
  · rintro m (rfl | rfl) test
    · exact sound.isTest_of_locate mem located test
    · obtain ⟨test', package⟩ := tests test
      obtain ⟨test'', package'⟩ := sound.isTest_of_locate mem located test'
      exact ⟨test'', package'.trans package⟩
  · rcases ends with rfl | offered
    · exact entryPoint
    · exact offered.2

/-- Every binding is encapsulated: for every site that is bound there are the importing module and
the owner of the concrete declaration, and the binding leaks nothing from the one to the other. -/
theorem encapsulated_of_mem_bindings {site : Site} {b : Binding}
    (mem : (site, .ok b) ∈ (ofSources settings sources).bindings) :
    ∃ importer owner, (ofSources settings sources).tree.module? site.module = some importer ∧
      (ofSources settings sources).tree.module? b.declaration.owner = some owner ∧
        Encapsulated (ofSources settings sources) importer owner b := by
  have sound := sound_ofSources settings sources
  obtain ⟨importer, hm, statement, item, same, -, -, result⟩ :=
    (mem_bindings_iff settings sources).mp mem
  rw [Linked.result] at result
  cases found : (ofSources settings sources).toLinked.target statement.path importer with
  | error cause =>
    rw [found] at result
    exact absurd result (by simp [Except.bind, Except.mapError])
  | ok target =>
    rw [found] at result
    dsimp only [Except.bind] at result
    cases bound : (ofSources settings sources).toLinked.bind item target importer with
    | error cause =>
      rw [bound] at result
      exact absurd result (by simp [Except.mapError])
    | ok b' =>
      rw [bound] at result
      obtain rfl : b = b' := Except.ok.inj result
      obtain ⟨located, -⟩ := Linked.target_eq_ok_iff.mp found
      have ht := sound.locate_mem hm located
      obtain ⟨d, -, -, -, sits⟩ := sound.tree.exists_directory ht
      obtain ⟨via, origin, finds, rfl⟩ := (Linked.bind_eq_ok_iff sits.distinct).mp bound
      obtain ⟨owner, ho, owned, encapsulated⟩ :=
        encapsulated_of_finds settings sources hm found finds item.localName item.span
      exact ⟨importer, owner, sound.tree.module?_eq_some_iff.mpr ⟨hm, same.symm⟩,
        sound.tree.module?_owner ho owned, encapsulated⟩

/-- A module with a private declaration, a module that re-exports the public one, and a test of the
first that imports both. -/
def sample : List PackageSource :=
  let store : ModuleSource := ⟨"Store", none,
    [⟨"key", .private, .function, none, none⟩, ⟨"get", .public, .function, none, none⟩], []⟩
  let api : ModuleSource := ⟨"Api", none,
    [⟨"get", .public, .reexport, some ⟨["Store"], none⟩, none⟩], []⟩
  let storeTest : ModuleSource := ⟨"StoreTest", none, [],
    [⟨⟨["Store"], none⟩, [⟨"key", none, none⟩], none⟩,
      ⟨⟨["Api"], none⟩, [⟨"get", none, none⟩], none⟩]⟩
  [⟨"app", [], ⟨"src", [store, api], []⟩, some ⟨"test", [storeTest], []⟩⟩]

/-- The private declaration of the sample is bound in the test, and encapsulated all the same. -/
theorem encapsulated_sample :
    ∃ b : Binding, (⟨⟨2⟩, 0, 0⟩, .ok b) ∈ (ofSources .standard sample).bindings ∧
      b.declaration.tier = .private ∧
        ∃ importer owner, (ofSources .standard sample).tree.module? ⟨2⟩ = some importer ∧
          (ofSources .standard sample).tree.module? b.declaration.owner = some owner ∧
            Encapsulated (ofSources .standard sample) importer owner b := by
  have bound : ∃ b : Binding, (⟨⟨2⟩, 0, 0⟩, .ok b) ∈ (ofSources .standard sample).bindings ∧
      b.declaration.tier = .private := by
    let key : Declaration := ⟨⟨"key", .private, .function, none, none⟩, ⟨0⟩, ⟨0⟩⟩
    let get : Declaration := ⟨⟨"get", .public, .function, none, none⟩, ⟨1⟩, ⟨0⟩⟩
    let store : Module :=
      ⟨⟨0⟩, "Store", ["Store"], ⟨0⟩, ⟨0⟩, .source, false, [key, get], [], none⟩
    exact ⟨⟨"key", "key", key, key, store, none⟩, by decide +kernel, rfl⟩
  obtain ⟨b, mem, concealed⟩ := bound
  exact ⟨b, mem, concealed, encapsulated_of_mem_bindings .standard sample mem⟩

end Resolution

end LetModules
