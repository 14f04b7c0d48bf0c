import LetModules.Proofs.Binding.Found
import LetModules.Proofs.Exports.Surface
import LetModules.Proofs.Located

/-!
The names that are listed when one is missing. A report that a module does not export a name lists
names that it has, and three routes lead to such a report, each with a list of its own. The export
set is only listed to ordinary imports, and never has the missing name. For a re-export the names
are read off before the re-exports of the module have been followed, and for a paired test they are
all that the module declares; so a re-export that stands for nothing is missed and listed at once
(`lacks_of_mem_problems`).
-/

namespace LetModules

open Reexport (lead isOffered notOffered IsOrigin)

namespace Linked

/-- The ways in which a module comes to be told that another one lacks a name, with the names that
are listed as available. -/
inductive Lacks (linked : Linked) (asker target : Module) (name : String) : List String → Prop
  /-- The name is re-exported, and listed are the names that the target offers. -/
  | reexport {d : Declaration} {path : ModulePath} (declared : d ∈ asker.declarations)
      (named : d.name = name) (source : d.source = some path)
      (located : linked.locate path asker = .ok target)
      (listed : name ∈ (target.declarations.filter (isOffered linked.toScope)).map (·.name) ↔
        ∃ e ∈ target.declarations, e.name = name ∧ linked.Stands target e .broken) :
      Lacks linked asker target name
        ((target.declarations.filter (isOffered linked.toScope)).map (·.name))
  /-- The name is imported, and listed are the exports of the target. -/
  | import {statement : ImportStatement} {item : ImportItem} (written : statement ∈ asker.imports)
      (asked : item ∈ statement.items) (named : item.name = name)
      (found : linked.target statement.path asker = .ok target)
      (unpaired : ⟨asker, target⟩ ∉ linked.pairings)
      (unlisted : name ∉ linked.exports.names linked.pairings target) :
      Lacks linked asker target name (linked.exports.names linked.pairings target)
  /-- The name is imported by the test of the target, and listed is all that the target declares. -/
  | paired {statement : ImportStatement} {item : ImportItem} (written : statement ∈ asker.imports)
      (asked : item ∈ statement.items) (named : item.name = name)
      (found : linked.target statement.path asker = .ok target)
      (paired : ⟨asker, target⟩ ∈ linked.pairings)
      (listed : name ∈ target.declarations.map (·.name) ↔ ∃ e ∈ target.declarations,
        e.name = name ∧ e.isReexport = true ∧ linked.exports.originOf e = none) :
      Lacks linked asker target name (target.declarations.map (·.name))

end Linked

theorem eq_error_of_map {ε : Type} {f : α → β} {e : ε} :
    ∀ {found : Except ε α}, found.map f = .error e → found = .error e
  | .error _, same => congrArg Except.error (Except.error.inj same)

section Causes

variable {name shown : String} {available : List String}

namespace Growth

/-- What is reported while a tree grows has nothing to do with exports. -/
theorem cause_ne_notExported {sources : List PackageSource} {problem : Problem}
    (mem : problem ∈ (ofSources sources).problems) :
    problem.cause ≠ .notExported name shown available := by
  have added : ∀ problem ∈ (sources.foldl add empty).problems,
      problem.cause ≠ .notExported name shown available := by
    refine List.foldlRecOn (motive := fun growth : Growth => ∀ problem ∈ growth.problems,
      problem.cause ≠ .notExported name shown available) _ _
      (fun _ absent => absurd absent List.not_mem_nil) fun growth before source _ problem mem => ?_
    rw [add] at mem
    split at mem <;> rcases List.mem_append.mp mem with mem | mem
    · exact before problem mem
    · rw [PackageSource.redeclarations_eq] at mem
      obtain ⟨⟨file, path⟩, -, mem⟩ := List.mem_flatMap.mp mem
      obtain ⟨header, -, rfl⟩ := List.mem_map.mp mem
      simp [ModuleSource.redeclared]
    · exact before problem mem
    · intro same
      have fatal := (ModuleTree.refusing_of_mem_refusals mem).fatal
      rw [Problem.isFatal, same] at fatal
      exact absurd fatal (by simp [Cause.isFatal])
  rcases List.mem_append.mp mem with mem | mem
  · exact added problem mem
  · obtain ⟨package, -, mem⟩ := List.mem_flatMap.mp mem
    obtain ⟨dependency, -, rfl⟩ := List.mem_map.mp mem
    simp [Problem.of]

end Growth

/-- A path that leads nowhere has nothing to do with exports. -/
theorem Scope.locate_ne_notExported {scope : Scope} {path : ModulePath} {importer : Module} :
    scope.locate path importer ≠ .error (.notExported name shown available) := by
  intro failed
  have code := code_of_locate_eq_error failed
  rw [Cause.code] at code
  split at code <;> simp at code

namespace Reexport

variable {scope : Scope}

/-- A re-export that leads nowhere for want of an export is located, and its name not offered. -/
theorem of_lead_eq_notExported {owner : Module} {d : Declaration}
    (error : lead scope owner d = .error (.notExported name shown available)) :
    ∃ path target, d.source = some path ∧ scope.locate path owner = .ok target ∧
      .notExported name shown available = notOffered scope d.name target ∧
        ∀ e, target.declaration? d.name = some e → isOffered scope e = false := by
  rw [lead] at error
  split at error
  · cases error
  · rename_i path source
    split at error
    · rename_i failed
      exact absurd (Except.error.inj error ▸ failed) Scope.locate_ne_notExported
    · rename_i target located
      split at error
      · cases error
      · split at error
        · rename_i absent
          refine ⟨path, target, source, located, (Except.error.inj error).symm, fun e present => ?_⟩
          exact absurd (absent.symm.trans present) (by simp)
        · rename_i published present
          split at error
          · cases error
          · rename_i withheld
            refine ⟨path, target, source, located, (Except.error.inj error).symm,
              fun e present' => ?_⟩
            obtain rfl := Option.some.inj (present.symm.trans present')
            exact Bool.not_eq_true _ ▸ withheld

/-- A name is listed as offered if what the module declares under it is offered. -/
theorem mem_offered_iff (sound : scope.tree.Sound) {target : Module}
    (mem : target ∈ scope.tree.modules) :
    name ∈ (target.declarations.filter (isOffered scope)).map (·.name) ↔
      ∃ e, target.declaration? name = some e ∧ isOffered scope e = true := by
  simp only [sound.declaration?_name_eq_some_iff mem, List.mem_map, List.mem_filter]
  exact exists_congr fun e => and_right_comm

end Reexport

namespace Linked

variable {linked : Linked} {asker target : Module}

/-- A statement without a target does not lack an export. -/
theorem target_ne_notExported {path : ModulePath} :
    linked.target path asker ≠ .error (.notExported name shown available) := by
  rw [Linked.target, Linked.named]
  intro error
  split at error
  · rename_i failed
    split at failed
    · rename_i lost
      cases failed
      cases error
      exact Scope.locate_ne_notExported lost
    · split at failed
      · cases failed
        cases error
      · cases failed
  · split at error
    · cases error
    · cases error

/-- What is broken is offered all the same, and stands for nothing. -/
theorem stands_broken_iff {e : Declaration} : linked.Stands target e .broken ↔
    isOffered linked.toScope e = true ∧ linked.exports.originOf e = none := by
  rw [Stands, Reexport.isOffered_iff]
  constructor
  · rintro ⟨offered, reexport, lost⟩
    exact ⟨⟨offered, by simp [Pairings.isEntryPoint, reexport]⟩, lost⟩
  · rintro ⟨⟨offered, -⟩, lost⟩
    exact ⟨offered, isReexport_of_originOf_eq_none lost, lost⟩

/-- An ordinary import that lacks an export is not in the list of exports. -/
theorem of_exported_eq_notExported
    (error : linked.exported name target asker = .error (.notExported name' shown available)) :
    name' = name ∧ shown = linked.tree.displayPath target ∧
      available = linked.exports.names linked.pairings target ∧
        name ∉ linked.exports.names linked.pairings target := by
  rw [exported] at error
  split at error
  · rename_i absent
    cases error
    refine ⟨rfl, rfl, rfl, fun listed => ?_⟩
    obtain ⟨x, mem, named⟩ := List.mem_map.mp listed
    exact absurd (decide_eq_true named) (List.find?_eq_none.mp absent x mem)
  · split at error
    · cases error
    · cases error

/-- An import of a paired test that lacks an export is listed if it is a re-export that stands for
nothing. -/
theorem of_privileged_eq_notExported (distinct : (target.declarations.map (·.name)).Nodup)
    (error : linked.privileged name target = .error (.notExported name' shown available)) :
    name' = name ∧ shown = linked.tree.displayPath target ∧
      available = target.declarations.map (·.name) ∧
        (name ∈ target.declarations.map (·.name) ↔ ∃ e ∈ target.declarations,
          e.name = name ∧ e.isReexport = true ∧ linked.exports.originOf e = none) := by
  have missing : Cause.notExported name' shown available =
      .notExported name (linked.tree.displayPath target) (target.declarations.map (·.name)) := by
    rw [privileged] at error
    split at error
    · exact (Except.error.inj error).symm
    · split at error
      · exact (Except.error.inj error).symm
      · cases error
  injection missing with named displayed list
  refine ⟨named, displayed, list, fun listed => ?_, ?_⟩
  · obtain ⟨e, declared, rfl⟩ := List.mem_map.mp listed
    have lost : linked.exports.originOf e = none := by
      cases traced : linked.exports.originOf e with
      | none => rfl
      | some o =>
        rw [(privileged_eq_ok_iff distinct).mpr ⟨declared, rfl, traced⟩] at error
        cases error
    exact ⟨e, declared, rfl, isReexport_of_originOf_eq_none lost, lost⟩
  · rintro ⟨e, declared, same, -⟩
    exact List.mem_map.mpr ⟨e, declared, same⟩

end Linked

end Causes

namespace Scope.Sound

variable {scope : Scope} (sound : scope.Sound) {asker : Module}
  {name shown : String} {available : List String}

include sound

/-- A re-export that fails for want of an export lacks it in the module that its path leads to. -/
theorem lacks_of_fails {d : Declaration} (mem : asker ∈ scope.tree.modules)
    (declared : d ∈ asker.declarations)
    (fails : Reexport.Fails scope ⟨asker, d⟩ (.notExported name shown available)) :
    ∃ target ∈ scope.tree.modules, shown = scope.tree.displayPath target ∧
      Linked.Lacks ⟨scope, (Exports.ofScope scope).1⟩ asker target name available := by
  generalize known : Cause.notExported name shown available = cause at fails
  cases fails with
  | astray error =>
    subst known
    obtain ⟨path, target, source, located, same, withheld⟩ := Reexport.of_lead_eq_notExported error
    have ht := sound.locate_mem mem located
    injection same with named displayed list
    subst named displayed list
    refine ⟨target, ht, rfl, .reexport declared rfl source located ⟨fun listed => ?_, ?_⟩⟩
    · obtain ⟨e, present, offered⟩ := (Reexport.mem_offered_iff sound.tree ht).mp listed
      exact absurd offered (by simp [withheld e present])
    · rintro ⟨e, there, named, broken⟩
      have present := (sound.tree.declaration?_name_eq_some_iff ht).mpr ⟨there, named⟩
      exact absurd (Linked.stands_broken_iff.mp broken).1 (by simp [withheld e present])
  | @empty target e led nothing =>
    obtain ⟨path, source, located, -, present, offered⟩ := Reexport.lead_eq_to_iff.mp led
    have ht := sound.locate_mem mem located
    have there := (sound.tree.declaration?_name_eq_some_iff ht).mp present
    have lost : (Exports.ofScope scope).1.originOf e = none :=
      Option.eq_none_iff_forall_not_mem.mpr fun o means => nothing o <|
        (sound.originOf_eq_some_iff (sound.tree.mem_declarations.mpr ⟨target, ht, there.1⟩)).mp means
    injection known with named displayed list
    subst named displayed list
    refine ⟨target, ht, rfl, .reexport declared rfl source located (iff_of_true ?_ ?_)⟩
    · exact (Reexport.mem_offered_iff sound.tree ht).mpr ⟨e, present, offered⟩
    · exact ⟨e, there.1, there.2, Linked.stands_broken_iff.mpr ⟨offered, lost⟩⟩
  | hidden => cases known

/-- An item that is not bound for want of an export lacks it in the target of its statement. -/
theorem lacks_of_bind {statement : ImportStatement} {item : ImportItem} {target : Module}
    (mem : asker ∈ scope.tree.modules) (written : statement ∈ asker.imports)
    (asked : item ∈ statement.items)
    (found : Linked.target ⟨scope, (Exports.ofScope scope).1⟩ statement.path asker = .ok target)
    (error : Linked.bind ⟨scope, (Exports.ofScope scope).1⟩ item target asker =
      .error (.notExported name shown available)) :
    ∃ target ∈ scope.tree.modules, shown = scope.tree.displayPath target ∧
      Linked.Lacks ⟨scope, (Exports.ofScope scope).1⟩ asker target name available := by
  have ht := sound.locate_mem mem (Linked.target_eq_ok_iff.mp found).1
  refine ⟨target, ht, ?_⟩
  rw [Linked.bind] at error
  split at error
  · rename_i privileged
    obtain ⟨_, -, -, -, sits⟩ := sound.tree.exists_directory ht
    obtain ⟨rfl, rfl, rfl, listed⟩ := Linked.of_privileged_eq_notExported sits.distinct
      (eq_error_of_map error)
    exact ⟨rfl, .paired written asked rfl found
      ((sound.isPrivileged_iff mem ht).mp privileged) listed⟩
  · rename_i unprivileged
    obtain ⟨rfl, rfl, rfl, unlisted⟩ := Linked.of_exported_eq_notExported
      (eq_error_of_map error)
    exact ⟨rfl, .import written asked rfl found
      (fun paired => unprivileged ((sound.isPrivileged_iff mem ht).mpr paired)) unlisted⟩

end Scope.Sound

namespace Resolution

/-- Whatever is reported for want of an export, it is a re-export, an ordinary import or the import
of a paired test that lacks it, and the names that it comes with are those listed on that way. -/
theorem lacks_of_mem_problems (settings : Settings) (sources : List PackageSource)
    {problem : Problem} (mem : problem ∈ (ofSources settings sources).problems)
    {name shown : String} {available : List String}
    (cause : problem.cause = .notExported name shown available) :
    let r := ofSources settings sources
    ∃ asker ∈ r.tree.modules, ∃ target ∈ r.tree.modules, shown = r.tree.displayPath target ∧
      r.toLinked.Lacks asker target name available := by
  intro r
  have sound : r.toScope.Sound := sound_ofSources settings sources
  rw [ofSources, ofGrowth] at mem
  simp only [List.mem_append, or_assoc] at mem
  rcases mem with grown | paired | published | imported
  · exact absurd cause (Growth.cause_ne_notExported grown)
  · rw [Pairing.problems_ofTree (Growth.sound_ofSources sources)] at paired
    obtain ⟨late, -, rfl⟩ := List.mem_map.mp paired
    cases cause
  · obtain ⟨cycles, failures, ledger⟩ := Reexport.exists_ledger_followAll sound.tree
    rcases List.mem_append.mp (ledger.problems.mem_iff.mp published) with reported | reported
    · obtain ⟨c, -, rfl⟩ := List.mem_map.mp reported
      cases cause
    · obtain ⟨⟨⟨asker, d⟩, why⟩, listed, rfl⟩ := List.mem_map.mp reported
      obtain rfl : why = .notExported name shown available := cause
      have known := ledger.known ⟨asker, d⟩
        (List.mem_append_right _ (List.mem_map_of_mem (f := (·.1)) listed))
      exact ⟨asker, known.owner,
        sound.lacks_of_fails known.owner known.declared (ledger.fails _ listed).1⟩
  · obtain ⟨imports, listed, mem⟩ := List.mem_flatMap.mp imported
    obtain ⟨asker, hm, rfl⟩ := List.mem_map.mp listed
    -- the imports alone make an outline; what it declares plays no part
    have concerns := ModuleImports.blames_ofModule
      (show asker.imports = (⟨[], asker.imports, []⟩ : Outline).imports from rfl) problem mem
    refine ⟨asker, hm, ?_⟩
    cases concerns with
    | redeclaration | cycle | again => cases cause
    | reexport _ recorded => exact absurd recorded List.not_mem_nil
    | statement _ error =>
      obtain rfl := cause
      exact absurd error Linked.target_ne_notExported
    | item written asked found error =>
      obtain rfl := cause
      exact sound.lacks_of_bind hm written asked found error

/-- A module that takes over a broken re-export, and a test of a module with a broken one. -/
def unfulfilledSample : List PackageSource :=
  let reexport := fun tier source =>
    (⟨"get", tier, .reexport, some ⟨[source], none⟩, none⟩ : DeclarationHeader)
  let facade : ModuleSource := ⟨"Facade", none, [reexport .public "Store"], []⟩
  let store : ModuleSource := ⟨"Store", none, [reexport .public "Gone"], []⟩
  let cache : ModuleSource := ⟨"Cache", none, [reexport .private "Gone"], []⟩
  let cacheTest : ModuleSource :=
    ⟨"CacheTest", none, [], [⟨⟨["Cache"], none⟩, [⟨"get", none, none⟩], none⟩]⟩
  [⟨"app", [], ⟨"src", [facade, store, cache], []⟩, some ⟨"test", [cacheTest], []⟩⟩]

/-- In the sample `get` is reported to be missing in `Store` and in `Cache`, and is the very name
that is listed as available there; an ordinary import would find nothing in their exports. -/
theorem missing_and_available :
    let r := ofSources .standard unfulfilledSample
    r.problems.map (·.cause) =
        [.notInScope "Gone" "app::Store" [], .notExported "get" "app::Store" ["get"],
          .notInScope "Gone" "app::Cache" [], .notExported "get" "app::Cache" ["get"]] ∧
      r.tree.modules.map (r.exports.names r.pairings) = [[], [], [], []] := by
  decide +kernel

end Resolution

end LetModules
