import LetModules.Proofs.Scope.Locate
import LetModules.Proofs.Tree.Ancestry

/-!
What paths name, without the searches that find it. A bare name is looked up in whole subtrees,
where a folding module is met by the name of its directory and a plain one by its own; it comes to
the one module of that name at any depth below an anchor (`onlyInReach_locate`). A full path is
walked directory by directory from one root after the other; it comes to the first module that owns
the path (`firstOwner_locate`).
-/

namespace LetModules

open Relation (ReflTransGen)

section Short

namespace ModuleTree.Sound

variable {tree : ModuleTree} (sound : tree.Sound)

include sound

/-- The modules of a name at any depth below a directory. -/
theorem mem_modulesNamed_iff {d : Directory} (hd : d ∈ tree.directories) {name : String}
    {m : Module} : m ∈ d.modulesNamed name ↔
      m ∈ tree.modules ∧ m.name = name ∧ ReflTransGen tree.LiesIn m.directory d.id := by
  rw [Directory.mem_modulesNamed (sound.orderly hd)]
  constructor
  · rintro ⟨e, below, hm, named⟩
    have he := ((sound.mem_subtree_iff hd).mp below).1
    have up := (sound.mem_subtree_iff_liesIn hd he).mp below
    exact ⟨sound.mem_modules.mpr ⟨e, he, hm⟩, named, (sound.sits he hm).directory ▸ up⟩
  · rintro ⟨hm, named, up⟩
    obtain ⟨e, he, -, here, sits⟩ := sound.exists_directory hm
    exact ⟨e, (sound.mem_subtree_iff_liesIn hd he).mpr (sits.directory ▸ up), here, named⟩

/-- What a module lies below is a directory of the tree. -/
theorem exists_directory_of_liesIn {m : Module} (hm : m ∈ tree.modules) {anchor : DirectoryId}
    (up : ReflTransGen tree.LiesIn m.directory anchor) :
    ∃ d ∈ tree.directories, tree.directory? anchor = some d ∧ d.id = anchor := by
  cases up with
  | refl =>
    obtain ⟨d, hd, found, -, sits⟩ := sound.exists_directory hm
    exact ⟨d, hd, found, sits.directory.symm⟩
  | tail _ last =>
    obtain ⟨child, found, parent⟩ := last
    obtain ⟨hc, -⟩ := sound.directory?_eq_some_iff.mp found
    rcases sound.isRoot_or_listedBy hc with root | ⟨above, listed⟩
    · exact absurd (root.parent.symm.trans parent) (by simp)
    · obtain rfl : above.id = anchor := Option.some.inj (listed.parent.symm.trans parent)
      exact ⟨above, (sound.directory?_eq_some_iff.mp listed.found).1, listed.found, rfl⟩

end ModuleTree.Sound

namespace Scope

variable (scope : Scope) (importer : Module)

/-- Bare names are looked up in the directory of the importer and below it, and for a paired test in
the directory of its production module and below that. -/
def Anchored (anchor : DirectoryId) : Prop :=
  anchor = importer.directory ∨ ∃ production,
    scope.pairings.productionOf importer.id = some production ∧ anchor = production.directory

/-- `m` has the name and lies in an anchor or at some depth below one. -/
structure InReach (name : String) (m : Module) : Prop where
  mem : m ∈ scope.tree.modules
  named : m.name = name
  below : ∃ anchor, scope.Anchored importer anchor ∧
    ReflTransGen scope.tree.LiesIn m.directory anchor

/-- The name is reported to be out of scope, and the modules for which `p` holds are listed. -/
def Reports (name : String) (p : Module → Prop) (found : Except Cause Module) : Prop :=
  ∃ listed : List Module, listed.Nodup ∧ (∀ m, m ∈ listed ↔ p m) ∧
    found = .error (.notInScope name (scope.tree.displayPath importer) (listed.map (·.pathText)))

/-- What a bare name comes to: the only module in reach, and a report if there are several or
none. -/
structure OnlyInReach (name : String) (found : Except Cause Module) : Prop where
  one : ∀ m, found = .ok m ↔ ∀ n, scope.InReach importer name n ↔ n = m
  several : ∀ m n, scope.InReach importer name m → scope.InReach importer name n → m ≠ n →
    scope.Reports importer name (scope.InReach importer name) found
  none : (∀ m, ¬ scope.InReach importer name m) → scope.Reports importer name
    (fun m => m ∈ scope.tree.modules ∧ m.package = importer.package ∧ m.root = .source ∧
      m.name = name) found

variable {scope importer}

theorem mem_anchors_iff {d : Directory} : d ∈ scope.anchors importer ↔
    ∃ anchor, scope.Anchored importer anchor ∧ scope.tree.directory? anchor = some d := by
  rw [anchors, List.mem_filterMap]
  refine exists_congr fun anchor => and_congr_left fun _ => ?_
  simp only [List.mem_cons, Option.mem_toList, Option.map_eq_some_iff, Anchored, @eq_comm _ anchor]

/-- Searching below the anchors finds what is in reach. -/
theorem mem_inScope_iff (sound : scope.tree.Sound) {name : String} {m : Module} :
    m ∈ scope.inScope name importer ↔ scope.InReach importer name m := by
  rw [inScope, List.mem_eraseDups, List.mem_flatMap]
  constructor
  · rintro ⟨d, hd, found⟩
    obtain ⟨anchor, anchored, there⟩ := mem_anchors_iff.mp hd
    obtain ⟨hd, rfl⟩ := sound.directory?_eq_some_iff.mp there
    obtain ⟨hm, named, up⟩ := (sound.mem_modulesNamed_iff hd).mp found
    exact ⟨hm, named, d.id, anchored, up⟩
  · rintro ⟨hm, named, anchor, anchored, up⟩
    obtain ⟨d, hd, there, rfl⟩ := sound.exists_directory_of_liesIn hm up
    exact ⟨d, mem_anchors_iff.mpr ⟨d.id, anchored, there⟩,
      (sound.mem_modulesNamed_iff hd).mpr ⟨hm, named, up⟩⟩

/-- Looking up a bare name comes to the only module of that name at any depth below an anchor. -/
theorem onlyInReach_locate (sources : List PackageSource) (registry : Registry)
    (pairings : Pairings) (importer : Module) (name : String) (span : Option Span) :
    let scope : Scope := ⟨(Growth.ofSources sources).tree, registry, pairings⟩
    scope.OnlyInReach importer name (scope.locate ⟨[name], span⟩ importer) := by
  intro scope
  have sound : scope.tree.Sound := Growth.sound_ofSources sources
  have reached : ∀ {m}, m ∈ scope.inScope name importer ↔ scope.InReach importer name m :=
    mem_inScope_iff sound
  have short : scope.locate ⟨[name], span⟩ importer = scope.locateShort name importer := rfl
  rw [short]
  constructor
  case one =>
    intro m
    simp only [locateShort_eq_ok_iff_inScope, reached]
  case several =>
    intro m n hm hn differ
    refine ⟨scope.inScope name importer, nodup_eraseDups _, fun _ => reached, ?_⟩
    rw [locateShort]
    split
    · rename_i k only
      have same : ∀ {x}, scope.InReach importer name x → x = k := fun hx =>
        List.mem_singleton.mp (only ▸ reached.mpr hx)
      exact absurd ((same hm).trans (same hn).symm) differ
    · rename_i nothing
      exact absurd (nothing ▸ reached.mpr hm) List.not_mem_nil
    · rfl
  case none =>
    intro nothing
    have empty : scope.inScope name importer = [] :=
      List.eq_nil_iff_forall_not_mem.mpr fun m hm => nothing m (reached.mp hm)
    refine ⟨scope.candidates importer.package name, sound.nodup_modules.filter _, ?_, ?_⟩
    · intro m
      simp [candidates, Module.isProduction, and_assoc]
    · rw [locateShort, empty]

end Scope

end Short

section Full

namespace ModuleTree

variable (tree : ModuleTree)

/-- The module below a root of a package that has the path. -/
structure Owns (id : PackageId) (kind : Root) (names : List String) (m : Module) : Prop where
  mem : m ∈ tree.modules
  package : m.package = id
  root : m.root = kind
  path : m.path = names

/-- The module that a full path comes to: the first that there is of the test module with the path,
if a test asks, the production module with the path, and the production module with the rest of the
path in the dependency that the first segment names. -/
inductive FirstOwner (importer : Module) (first : String) (rest : List String) (m : Module) : Prop
  | test (asks : importer.root = .test)
      (owns : tree.Owns importer.package .test (first :: rest) m)
  | source
      (untested : importer.root = .test →
        ∀ n, ¬ tree.Owns importer.package .test (first :: rest) n)
      (owns : tree.Owns importer.package .source (first :: rest) m)
  | dependency
      (untested : importer.root = .test →
        ∀ n, ¬ tree.Owns importer.package .test (first :: rest) n)
      (unowned : ∀ n, ¬ tree.Owns importer.package .source (first :: rest) n)
      {p q : Package} (hp : p ∈ tree.packages) (hq : q ∈ tree.packages)
      (here : p.id = importer.package) (named : q.name = first) (other : p.id ≠ q.id)
      (declared : q.name ∈ p.dependencies) (owns : tree.Owns q.id .source rest m)

end ModuleTree

namespace Scope

variable {scope : Scope} {importer : Module}

theorem own_iff {names : List String} {m : Module} : scope.Own importer names m ↔
    importer.root = .test ∧ scope.tree.Owns importer.package .test names m ∨
      (importer.root = .test → ∀ n, ¬ scope.tree.Owns importer.package .test names n) ∧
        scope.tree.Owns importer.package .source names m := by
  constructor
  · rintro ⟨mem, package, path, root⟩
    cases kind : importer.root with
    | source =>
      refine .inr ⟨by simp, mem, package, ?_, path⟩
      exact root.elim (·.trans kind) And.left
    | test =>
      rcases root with root | ⟨root, absent⟩
      · exact .inl ⟨rfl, mem, package, root.trans kind, path⟩
      · refine .inr ⟨fun _ n owns => ?_, mem, package, root, path⟩
        exact absent n owns.mem owns.package (owns.root.trans kind.symm) owns.path
  · rintro (⟨kind, owns⟩ | ⟨absent, owns⟩)
    · exact ⟨owns.mem, owns.package, owns.path, .inl (owns.root.trans kind.symm)⟩
    · refine ⟨owns.mem, owns.package, owns.path, ?_⟩
      cases kind : importer.root with
      | source => exact .inl owns.root
      | test =>
        refine .inr ⟨owns.root, fun n mem package root path => ?_⟩
        exact absent kind n ⟨mem, package, root, path⟩

/-- If no own module has a path, no test module that the importer asks for has it, and no production
module. -/
theorem unowned_of_no_own {names : List String} (none_own : ∀ n, ¬ scope.Own importer names n) :
    (importer.root = .test → ∀ n, ¬ scope.tree.Owns importer.package .test names n) ∧
      ∀ n, ¬ scope.tree.Owns importer.package .source names n := by
  have untested := fun asks n owns => none_own n (own_iff.mpr (.inl ⟨asks, owns⟩))
  exact ⟨untested, fun n owns => none_own n (own_iff.mpr (.inr ⟨untested, owns⟩))⟩

/-- The first owner is a module of the own package, or else one of a dependency. -/
theorem firstOwner_iff {first : String} {rest : List String} {m : Module} :
    scope.tree.FirstOwner importer first rest m ↔ scope.Own importer (first :: rest) m ∨
      (∀ n, ¬ scope.Own importer (first :: rest) n) ∧ scope.Foreign importer first rest m := by
  constructor
  · rintro (⟨asks, owns⟩ | ⟨untested, owns⟩ |
      ⟨untested, unowned, hp, hq, here, named, other, declared, owns⟩)
    · exact .inl (own_iff.mpr (.inl ⟨asks, owns⟩))
    · exact .inl (own_iff.mpr (.inr ⟨untested, owns⟩))
    · refine .inr ⟨fun n own => ?_, owns.mem, ?_, owns.root, owns.path⟩
      · rcases own_iff.mp own with ⟨asks, owns⟩ | ⟨-, owns⟩
        · exact untested asks n owns
        · exact unowned n owns
      · exact ⟨_, hp, _, hq, here, owns.package.symm, named, other, declared⟩
  · rintro (own | ⟨none_own, foreign⟩)
    · rcases own_iff.mp own with ⟨asks, owns⟩ | ⟨untested, owns⟩
      · exact .test asks owns
      · exact .source untested owns
    · obtain ⟨untested, unowned⟩ := unowned_of_no_own none_own
      obtain ⟨p, hp, q, hq, here, there, named, other, declared⟩ := foreign.package
      exact .dependency untested unowned hp hq here named other declared
        ⟨foreign.mem, there.symm, foreign.root, foreign.path⟩

/-- A full path comes to the first module that owns it, and to a report if there is none. -/
theorem firstOwner_locate (sources : List PackageSource) (pairings : Pairings) {importer : Module}
    (mem : importer ∈ (Growth.ofSources sources).tree.modules) (first second : String)
    (rest : List String) (span : Option Span) :
    let tree := (Growth.ofSources sources).tree
    let scope : Scope := ⟨tree, .ofTree tree, pairings⟩
    let path : ModulePath := ⟨first :: second :: rest, span⟩
    (∀ m, scope.locate path importer = .ok m ↔
      tree.FirstOwner importer first (second :: rest) m) ∧
    ((∀ m, ¬ tree.FirstOwner importer first (second :: rest) m) → ∃ missing hint,
      scope.locate path importer = .error (.pathNotFound path.display missing hint)) := by
  intro tree scope path
  -- pairs play no part in a full path
  let unpaired : Scope := ⟨tree, .ofTree tree, []⟩
  have sound : unpaired.Sound := by
    refine ⟨Growth.sound_ofSources sources, rfl, ?_, List.nodup_nil, List.nodup_nil⟩
    exact fun _ absent => absurd absent List.not_mem_nil
  have found : ∀ m, scope.locate path importer = .ok m ↔
      tree.FirstOwner importer first (second :: rest) m := by
    intro m
    have owner : tree.FirstOwner importer first (second :: rest) m ↔ _ :=
      unpaired.firstOwner_iff
    rw [owner]
    exact sound.locate_several_eq_ok_iff mem (List.cons_ne_nil _ _)
  refine ⟨found, fun nothing => ?_⟩
  cases result : scope.locate path importer with
  | ok m => exact absurd ((found m).mp result) (nothing m)
  | error cause =>
    obtain ⟨missing, hint, rfl⟩ := exists_of_locateFull_eq_error
      (show scope.locateFull path first (second :: rest) importer = .error cause from result)
    exact ⟨missing, hint, rfl⟩

/-- A package with a module and its namesake among the tests, and a package that it depends on. -/
def namesakeSample : List PackageSource :=
  let file := fun name => (⟨name, none, [], []⟩ : ModuleSource)
  let lib : PackageSource := ⟨"lib", [], ⟨"src", [], [⟨"Text", [file "Trim"], []⟩]⟩, none⟩
  let sources : DirectorySource := ⟨"src", [file "Main"], [⟨"Store", [file "Map"], []⟩]⟩
  let tests : DirectorySource := ⟨"tests", [file "MainTest"], [⟨"Store", [file "Map"], []⟩]⟩
  [lib, ⟨"app", ["lib"], sources, some tests⟩]

/-- In the sample a path means the module among the tests when a test writes it, and its namesake
when another does; the name of a package leads to that package, and a path of it needs that name. -/
theorem firstOwner_locate_sample :
    let tree := (Growth.ofSources namesakeSample).tree
    let module := fun id name path directory package root =>
      (⟨⟨id⟩, name, path, ⟨directory⟩, ⟨package⟩, root, false, [], [], none⟩ : Module)
    let main := module 1 "Main" ["Main"] 2 1 .source
    let mainTest := module 3 "MainTest" ["MainTest"] 4 1 .test
    main ∈ tree.modules ∧ mainTest ∈ tree.modules ∧
      tree.FirstOwner main "Store" ["Map"] (module 2 "Map" ["Store", "Map"] 3 1 .source) ∧
      tree.FirstOwner mainTest "Store" ["Map"] (module 4 "Map" ["Store", "Map"] 5 1 .test) ∧
      tree.FirstOwner mainTest "lib" ["Text", "Trim"]
        (module 0 "Trim" ["Text", "Trim"] 1 0 .source) ∧
      ∀ m, ¬ tree.FirstOwner mainTest "Text" ["Trim"] m := by
  intro tree module main mainTest
  have hm : main ∈ tree.modules := by decide +kernel
  have ht : mainTest ∈ tree.modules := by decide +kernel
  have ofMain := fun second => (firstOwner_locate namesakeSample [] hm "Store" second [] none).1
  have ofTest := fun first second rest =>
    (firstOwner_locate namesakeSample [] ht first second rest none).1
  refine ⟨hm, ht, (ofMain "Map" _).mp (by decide +kernel),
    (ofTest "Store" "Map" [] _).mp (by decide +kernel),
    (ofTest "lib" "Text" ["Trim"] _).mp (by decide +kernel), fun m owner => ?_⟩
  have lost : (Scope.locate ⟨tree, .ofTree tree, []⟩ ⟨["Text", "Trim"], none⟩ mainTest).isOk =
      false := by decide +kernel
  rw [(ofTest "Text" "Trim" [] m).mpr owner] at lost
  cases lost

end Scope

end Full

end LetModules
