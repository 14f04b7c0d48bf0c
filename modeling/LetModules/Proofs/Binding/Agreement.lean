import LetModules.Proofs.Binding.Encapsulation
import LetModules.Proofs.Existence

/-!
Re-exports and imports agree. A re-export is followed through the declarations of the module at its
path, while other re-exports are still open; an import goes through the export set of that module,
which must exist for the importer. Unless the importer tests the module, the two find the same
there (`finds_iff_lead`): a re-export stands for what an import of its name from its path is bound
to, and both go through the same declaration.
-/

namespace LetModules

namespace ModuleTree.Sound

variable {linked : Linked} (sound : linked.tree.Sound)

include sound

/-- A module exists for whom it exports something to that stands for something. -/
theorem hasModule_of_visible {target requester : Module} (mem : target ∈ linked.tree.modules)
    {d origin : Declaration} (declared : d ∈ target.declarations)
    (offered : d.tier ≠ .private ∧ linked.pairings.isEntryPoint d = false)
    (traced : linked.exports.originOf d = some origin)
    (visible : linked.tree.visible d requester = true) :
    linked.hasModule target requester = true := by
  have exported : ⟨d.name, d, origin⟩ ∈ linked.exports.ofModule linked.pairings target :=
    List.mem_filterMap.mpr
      ⟨d, declared, Exports.exportOf_eq_some_iff.mpr ⟨offered, origin, traced, rfl⟩⟩
  have shows : linked.Shows requester target := .inr (List.any_eq_true.mpr ⟨_, exported, visible⟩)
  exact (sound.hasModule_iff mem requester).mpr ⟨target, mem, .inl rfl, shows⟩

end ModuleTree.Sound

namespace Scope.Sound

open Reexport

variable {scope : Scope} (sound : scope.Sound)

include sound

/-- A re-export with a path stands for what the declaration stands for that it leads to and sees. -/
theorem originOf_reexport_iff {m : Member} (hm : m.Of scope.tree) {path : ModulePath}
    (source : m.declaration.source = some path) {o : Declaration} :
    (Exports.ofScope scope).1.originOf m.declaration = some o ↔ ∃ target via,
      lead scope m.owner m.declaration = .ok (.to target via) ∧
        scope.tree.visible via m.owner = true ∧
          (Exports.ofScope scope).1.originOf via = some o := by
  rw [sound.originOf_eq_some_iff (hm.mem sound.tree)]
  match led : lead scope m.owner m.declaration with
  | .error cause => simp [not_isOrigin_of_error sound.tree hm led]
  | .ok .itself => exact absurd (source.symm.trans (lead_eq_itself_iff.mp led)) (by simp)
  | .ok (.to target via) =>
    obtain ⟨there, published⟩ := lead_mem sound.tree led
    have inTree := sound.tree.mem_declarations.mpr ⟨target, there, published⟩
    simp [isOrigin_iff_of_to sound.tree hm led, sound.originOf_eq_some_iff inTree]

/-- A module that does not test the one at a path finds there what a re-export with this name and
path leads to, if it sees that and it stands for something. -/
theorem finds_iff_lead {exports : Exports} {m : Module} (hm : m ∈ scope.tree.modules)
    {d : Declaration} {path : ModulePath} (source : d.source = some path)
    (apart : ∀ n, scope.locate path m = .ok n → ⟨m, n⟩ ∉ scope.pairings) {target : Module}
    {via origin : Declaration} :
    (Linked.target ⟨scope, exports⟩ path m = .ok target ∧
      Linked.Finds ⟨scope, exports⟩ m target d.name via origin) ↔
        lead scope m d = .ok (.to target via) ∧ scope.tree.visible via m = true ∧
          exports.originOf via = some origin := by
  rw [Linked.target_eq_ok_iff, lead_eq_to_iff, isOffered_iff]
  constructor
  · rintro ⟨⟨located, elsewhere, -⟩, finds⟩
    have ht := sound.locate_mem hm located
    obtain ⟨offered, visible⟩ := sound.offered_of_finds hm ht finds (apart target located)
    exact ⟨⟨path, source, located, elsewhere,
      (sound.tree.declaration?_name_eq_some_iff ht).mpr ⟨finds.declared, finds.named⟩, offered⟩,
      visible, finds.origin⟩
  · rintro ⟨⟨path', source', located, elsewhere, published, offered⟩, visible, traced⟩
    obtain rfl := Option.some.inj (source.symm.trans source')
    have ht := sound.locate_mem hm located
    obtain ⟨declared, named⟩ := (sound.tree.declaration?_name_eq_some_iff ht).mp published
    have sees : Linked.accessible ⟨scope, exports⟩ via m = true := by
      rw [Linked.accessible, visible, Bool.or_true]
    refine ⟨⟨located, elsewhere, ?_⟩, ⟨declared, named, traced, .inr ⟨offered, sees⟩⟩⟩
    -- the import also asks whether the target exists, and this export makes it exist
    rw [Bool.or_eq_true]
    exact .inr (ModuleTree.Sound.hasModule_of_visible sound.tree ht declared offered traced visible)

end Scope.Sound

namespace Resolution

/-- A re-export stands for what its module gets by importing the same name from the same path, and
the import goes through the declaration to which the re-export leads first. Only the test of the
module at the path may get more. -/
theorem originOf_iff_imported (settings : Settings) (sources : List PackageSource) {m : Module}
    (hm : m ∈ (ofSources settings sources).tree.modules) {d : Declaration}
    (declared : d ∈ m.declarations) (reexport : d.isReexport = true) {path : ModulePath}
    (source : d.source = some path)
    (apart : ∀ n, (ofSources settings sources).locate path m = .ok n →
      ⟨m, n⟩ ∉ (ofSources settings sources).pairings)
    {item : ImportItem} (named : item.name = d.name) :
    (∀ o, (ofSources settings sources).exports.originOf d = some o ↔ ∃ target b,
      (ofSources settings sources).target path m = .ok target ∧
        (ofSources settings sources).bind item target m = .ok b ∧ b.declaration = o) ∧
    ∀ target b, (ofSources settings sources).target path m = .ok target →
      (ofSources settings sources).bind item target m = .ok b →
        Reexport.lead (ofSources settings sources).toScope m d = .ok (.to target b.via) := by
  have sound := sound_ofSources settings sources
  have of : Reexport.Member.Of (ofSources settings sources).tree ⟨m, d⟩ := ⟨hm, declared, reexport⟩
  have bound : ∀ {target b}, (ofSources settings sources).target path m = .ok target →
      ((ofSources settings sources).bind item target m = .ok b ↔ ∃ via origin,
        (ofSources settings sources).Finds m target d.name via origin ∧
          b = ⟨item.localName, item.name, origin, via, target, item.span⟩) := by
    intro target b found
    have ht := sound.locate_mem hm (Linked.target_eq_ok_iff.mp found).1
    obtain ⟨_, -, -, -, sits⟩ := sound.tree.exists_directory ht
    rw [← named, Linked.bind_eq_ok_iff sits.distinct]
  refine ⟨fun o => (sound.originOf_reexport_iff of source).trans ⟨?_, ?_⟩, ?_⟩
  · rintro ⟨target, via, led⟩
    obtain ⟨found, finds⟩ := (sound.finds_iff_lead hm source apart).mpr led
    exact ⟨target, _, found, (bound found).mpr ⟨via, o, finds, rfl⟩, rfl⟩
  · rintro ⟨target, b, found, binding, rfl⟩
    obtain ⟨via, origin, finds, rfl⟩ := (bound found).mp binding
    exact ⟨target, via, (sound.finds_iff_lead hm source apart).mp ⟨found, finds⟩⟩
  · intro target b found binding
    obtain ⟨via, origin, finds, rfl⟩ := (bound found).mp binding
    exact ((sound.finds_iff_lead hm source apart).mp ⟨found, finds⟩).1

/-- The re-export of the sample stands for the declaration in the store, and the import of its name
is bound to that as well. -/
theorem originOf_iff_imported_sample :
    let r := ofSources .standard sample
    let get : Declaration := ⟨⟨"get", .public, .function, none, none⟩, ⟨1⟩, ⟨0⟩⟩
    let again : Declaration := ⟨⟨"get", .public, .reexport, some ⟨["Store"], none⟩, none⟩, ⟨2⟩, ⟨1⟩⟩
    let api : Module := ⟨⟨1⟩, "Api", ["Api"], ⟨0⟩, ⟨0⟩, .source, false, [again], [], none⟩
    r.exports.originOf again = some get ∧ ∃ target b,
      r.target ⟨["Store"], none⟩ api = .ok target ∧
        r.bind ⟨"get", none, none⟩ target api = .ok b ∧ b.declaration = get ∧
          Reexport.lead r.toScope api again = .ok (.to target b.via) := by
  intro r get again api
  have mem : api ∈ r.tree.modules := by decide +kernel
  have stands : r.exports.originOf again = some get := by decide +kernel
  have untested : ∀ pair ∈ r.pairings, pair.test ≠ api := by decide +kernel
  have agrees := originOf_iff_imported .standard sample mem (List.mem_singleton.mpr rfl) rfl rfl
    (fun _ _ paired => untested _ paired rfl)
    (show (⟨"get", none, none⟩ : ImportItem).name = again.name from rfl)
  obtain ⟨target, b, found, binding, same⟩ := (agrees.1 get).mp stands
  exact ⟨stands, target, b, found, binding, same, agrees.2 target b found binding⟩

end Resolution

end LetModules
