import LetModules.Proofs.Scope.ClosedForm
import LetModules.Proofs.Text.Segments

/-!
What a suggested path is good for. A full path that leads nowhere may be answered with the path of
the one production module that has more of it before what was looked for. That path is found by
comparing ends of paths, and says nothing of how it is going to be read. In the importer's own
package it leads to the module, if no test module is in the way; in a dependency it never does,
because it does not begin with the name of that package (`exists_followed`).
-/

namespace LetModules

namespace ModuleTree

variable (tree : ModuleTree)

/-- Where a full path that no module of its own has is looked up for an importer: as it is in the
importer's package, if the first segment names no other one, and else, without that segment, in the
package that it names and that the importer's depends on. -/
inductive Searches (importer : Module) (first : String) (rest : List String) :
    Package → List String → Prop
  | own {p : Package} (hp : p ∈ tree.packages) (here : p.id = importer.package)
      (unnamed : ∀ q ∈ tree.packages, q.name = first → q = p) :
      Searches importer first rest p (first :: rest)
  | dependency {p q : Package} (hp : p ∈ tree.packages) (hq : q ∈ tree.packages)
      (here : p.id = importer.package) (named : q.name = first) (other : p.id ≠ q.id)
      (declared : q.name ∈ p.dependencies) : Searches importer first rest q rest

/-- The only production module of a package whose path ends in the names; it has more before. -/
structure Completes (id : PackageId) (names : List String) (m : Module) : Prop where
  mem : m ∈ tree.modules
  package : m.package = id
  root : m.root = .source
  ending : names <:+ m.path
  longer : names.length < m.path.length
  only : ∀ n ∈ tree.modules, n.package = id → n.root = .source → names <:+ n.path → n = m

/-- The names of the packages, and all segments in paths of modules, stand for themselves. -/
structure PlainNames : Prop where
  packages : ∀ p ∈ tree.packages, Text.Plain p.name
  modules : ∀ m ∈ tree.modules, ∀ name ∈ m.path, Text.Plain name

variable {tree}

theorem Searches.mem {importer : Module} {first : String} {rest sought : List String} {p : Package}
    (searches : tree.Searches importer first rest p sought) : p ∈ tree.packages := by
  cases searches with
  | own hp => exact hp
  | dependency _ hq => exact hq

theorem Searches.sought_ne_nil {importer : Module} {first : String} {rest sought : List String}
    {p : Package} (searches : tree.Searches importer first rest p sought) (several : rest ≠ []) :
    sought ≠ [] := by
  cases searches with
  | own => exact List.cons_ne_nil _ _
  | dependency => exact several

/-- What completes one segment or more has two or more itself. -/
theorem Completes.several {id : PackageId} {names : List String} {m : Module}
    (completes : tree.Completes id names m) (some : names ≠ []) :
    ∃ outer inner, m.path = outer :: inner ∧ inner ≠ [] := by
  have first : 0 < names.length := List.length_pos_iff.mpr some
  match path : m.path, completes.longer with
  | [], longer | [_], longer =>
    simp only [List.length_nil, List.length_singleton] at longer
    omega
  | outer :: next :: inner, _ => exact ⟨outer, next :: inner, rfl, List.cons_ne_nil _ _⟩

end ModuleTree

/-- What comes of following the suggestion of a module's path after a search of a package. -/
structure Scope.Followed (scope : Scope) (importer : Module) (searched : Package) (m : Module) :
    Prop where
  read : (ModulePath.parse m.pathText).segments = m.path
  /-- In the own package it leads to the module, but not for a test if a test module is there. -/
  own : searched.id = importer.package →
    (scope.locate (.parse m.pathText) importer = .ok m ↔
      (importer.root = .test → ∀ n, ¬ scope.tree.Owns importer.package .test m.path n))
  shadowed : searched.id = importer.package → importer.root = .test →
    ∀ n, scope.tree.Owns importer.package .test m.path n →
      scope.locate (.parse m.pathText) importer = .ok n
  /-- From another package it does not lead to the module. -/
  stray : searched.id ≠ importer.package → scope.locate (.parse m.pathText) importer ≠ .ok m
  /-- With the name of that package before it, it would, but for own modules of that path. -/
  named : searched.id ≠ importer.package →
    (scope.locate (.parse (Text.joined (searched.name :: m.path))) importer = .ok m ↔
      ∀ n, ¬ scope.Own importer (searched.name :: m.path) n)

/-- What a walk misses comes with no other path. -/
theorem Directory.hint_ne_of_walk {text : String} : ∀ {names : List String} {d : Directory}
    {miss : Miss}, d.walk names = .error miss → miss.hint ≠ some (.didYouMean text)
  | [], _, _, failed => by
    cases failed
    simp
  | [_], _, _, failed => by
    rw [walk, arrive] at failed
    split at failed
    · cases failed
    · split at failed
      · cases failed
        simp
      · split at failed <;> cases failed
        simp
  | _ :: _ :: _, _, _, failed => by
    rw [walk] at failed
    split at failed
    · cases failed
      simp
    · exact hint_ne_of_walk failed

namespace Scope

variable {scope : Scope} {importer : Module}

theorem hint_ne_of_walkFirst {names : List String} {text : String} :
    ∀ {roots : List Directory} {miss : Directory.Miss}, walkFirst names roots = .error miss →
      miss.hint ≠ some (.didYouMean text)
  | [], _, failed => by
    cases failed
    simp
  | root :: rest, miss, failed => by
    rw [walkFirst] at failed
    split at failed
    · cases failed
    · rename_i walked
      split at failed
      · cases failed
        exact Directory.hint_ne_of_walk walked
      · split at failed
        · cases failed
        · cases failed
          exact Directory.hint_ne_of_walk walked

/-- So another path is suggested only for what completes the segments. -/
theorem exists_completion {path : ModulePath} {id : PackageId} {names : List String}
    {roots : List Directory} {miss : Directory.Miss} {shown missing text : String}
    (failed : walkFirst names roots = .error miss)
    (reported : scope.missed path id names miss =
      .pathNotFound shown missing (some (.didYouMean text))) :
    ∃ m, scope.completion? id names = some m ∧ m.pathText = text := by
  injection reported with _ _ hint
  rw [Option.or_eq_some_iff] at hint
  obtain own | ⟨-, completed⟩ := hint
  · exact absurd own (hint_ne_of_walkFirst failed)
  · obtain ⟨m, found, same⟩ := Option.map_eq_some_iff.mp completed
    exact ⟨m, found, PathHint.didYouMean.inj same⟩

/-- What completes segments that no production module has as its path is alone with that end. -/
theorem completes_of_completion {id : PackageId} {names : List String} {m : Module}
    (unowned : ∀ n, ¬ scope.tree.Owns id .source names n)
    (found : scope.completion? id names = some m) : scope.tree.Completes id names m := by
  rw [completion?] at found
  split at found
  · rename_i alone single
    obtain rfl : m = alone := (Option.some.inj found).symm
    have fits : ∀ n, (n ∈ scope.tree.modules ∧ n.package = id ∧ n.root = .source ∧
        names.length < n.path.length ∧ names <:+ n.path) ↔ n = m := fun n => by
      have listed : n ∈ [m] ↔ n = m := List.mem_singleton
      rw [← listed, ← single]
      simp [Module.isProduction, and_assoc]
    obtain ⟨mem, package, root, longer, ending⟩ := (fits m).mpr rfl
    refine ⟨mem, package, root, ending, longer, fun n hn package root ending => ?_⟩
    refine (fits n).mp ⟨hn, package, root, ending.length_le.lt_of_ne fun same => ?_, ending⟩
    exact unowned n ⟨hn, package, root, (ending.eq_of_length same).symm⟩
  · cases found

/-- What was suggested for a dependency is foreign under the name of that dependency. -/
theorem foreign_of_searches {first : String} {rest sought : List String} {searched : Package}
    {m : Module} (other : searched.id ≠ importer.package)
    (searches : scope.tree.Searches importer first rest searched sought)
    (completes : scope.tree.Completes searched.id sought m) :
    scope.Foreign importer searched.name m.path m := by
  cases searches with
  | own _ here => exact absurd here other
  | dependency hp hq here _ differ declared =>
    exact ⟨completes.mem, ⟨_, hp, _, hq, here, completes.package.symm, rfl, differ, declared⟩,
      completes.root, rfl⟩

/-- A production module of the own package has its path, unless a test module comes first. -/
theorem own_path_iff {m : Module} (mem : m ∈ scope.tree.modules)
    (mine : m.package = importer.package) (root : m.root = .source) :
    scope.Own importer m.path m ↔
      (importer.root = .test → ∀ n, ¬ scope.tree.Owns importer.package .test m.path n) := by
  rw [own_iff]
  constructor
  · rintro (⟨-, owns⟩ | ⟨untested, -⟩)
    · exact absurd (owns.root.symm.trans root) (by decide)
    · exact untested
  · exact fun untested => .inr ⟨untested, mem, mine, root, rfl⟩

namespace Sound

variable (sound : scope.Sound)

include sound

/-- Behind a suggestion there is the module that completes what was searched for. -/
theorem exists_completes (mem : importer ∈ scope.tree.modules) {path : ModulePath} {first : String}
    {rest : List String} {shown missing text : String}
    (failed : scope.locateFull path first rest importer =
      .error (.pathNotFound shown missing (some (.didYouMean text)))) :
    ∃ searched sought m, scope.tree.Searches importer first rest searched sought ∧
      scope.tree.Completes searched.id sought m ∧ m.pathText = text := by
  obtain ⟨p, hp, here, -⟩ := sound.tree.exists_package mem
  rw [locateFull] at failed
  cases walked : walkFirst (first :: rest) (scope.ownRoots importer) with
  | ok m => simp [walked] at failed
  | error miss =>
    rw [walked] at failed
    cases other : scope.otherPackage? first importer with
    | none =>
      simp only [other, Except.error.injEq] at failed
      obtain ⟨m, completion, same⟩ := exists_completion walked failed
      have none_own : ∀ n, ¬ scope.Own importer (first :: rest) n := fun n own => by
        rw [(sound.walkFirst_ownRoots_eq_ok_iff mem).mpr own] at walked
        cases walked
      refine ⟨p, first :: rest, m, .own hp here.symm fun q hq named => ?_, ?_, same⟩
      · by_contra differ
        have named := sound.otherPackage?_eq_some_iff.mpr ⟨⟨q, hq, named, rfl⟩, fun same =>
          differ (sound.tree.package_inj hq hp (same.trans here))⟩
        rw [named] at other
        cases other
      · exact completes_of_completion (here ▸ (unowned_of_no_own none_own).2) (here ▸ completion)
    | some id =>
      obtain ⟨⟨q, hq, named, rfl⟩, differ⟩ := sound.otherPackage?_eq_some_iff.mp other
      simp only [other] at failed
      split at failed
      · rename_i depends
        split at failed
        · cases failed
        · rename_i miss lost
          obtain ⟨m, completion, same⟩ := exists_completion lost (Except.error.inj failed)
          rw [sound.registry, here, Registry.dependsOn_ofTree_iff sound.tree hp hq] at depends
          refine ⟨q, rest, m, .dependency hp hq here.symm named (here ▸ differ.symm) depends,
            completes_of_completion (fun n owns => ?_) completion, same⟩
          rw [(sound.walkFirst_source_eq_ok_iff hq).mpr
            ⟨owns.mem, owns.package, owns.root, owns.path⟩] at lost
          cases lost
      · cases failed

/-- Following a suggestion, by where it comes from. -/
theorem followed (mem : importer ∈ scope.tree.modules) {first : String} {rest : List String}
    {searched : Package} {sought : List String} {m : Module} (several : rest ≠ [])
    (searches : scope.tree.Searches importer first rest searched sought)
    (completes : scope.tree.Completes searched.id sought m)
    (plain : ∀ name ∈ m.path, Text.Plain name) (plainPackage : Text.Plain searched.name) :
    scope.Followed importer searched m := by
  have read : ModulePath.parse m.pathText = ⟨m.path, none⟩ := ModulePath.parse_joined plain
  obtain ⟨outer, inner, long, more⟩ := completes.several (searches.sought_ne_nil several)
  have found : ∀ n, scope.locate (.parse m.pathText) importer = .ok n ↔
      scope.Own importer m.path n ∨
        (∀ k, ¬ scope.Own importer m.path k) ∧ scope.Foreign importer outer inner n := by
    intro n
    rw [read, long]
    exact sound.locate_several_eq_ok_iff mem more
  constructor
  case read => rw [read]
  case own =>
    intro here
    have mine : m.package = importer.package := completes.package.trans here
    rw [found m, or_iff_left fun ⟨_, foreign⟩ => foreign.package_ne mine]
    exact own_path_iff completes.mem mine completes.root
  case shadowed =>
    exact fun _ asks n owns => (found n).mpr (.inl (own_iff.mpr (.inl ⟨asks, owns⟩)))
  case stray =>
    intro other located
    obtain own | ⟨-, foreign⟩ := (found m).mp located
    · exact other (completes.package.symm.trans own.package)
    · -- the path would be its own tail
      have tail := congrArg List.length (long.symm.trans foreign.path)
      simp at tail
  case named =>
    intro other
    rw [ModulePath.parse_joined (List.forall_mem_cons.mpr ⟨plainPackage, plain⟩),
      sound.locate_several_eq_ok_iff mem (long ▸ List.cons_ne_nil _ _),
      and_iff_left (foreign_of_searches other searches completes)]
    exact or_iff_right fun own => other (completes.package.symm.trans own.package)

end Sound

/-- Whatever a failed path is answered with, it is the path of the module that completes what was
searched for, and following it comes to what is said of such paths. -/
theorem exists_followed (settings : Settings) (sources : List PackageSource)
    (plain : (ofSources settings sources).tree.PlainNames) {importer : Module}
    (mem : importer ∈ (ofSources settings sources).tree.modules) {path : ModulePath}
    {shown missing text : String} (failed : (ofSources settings sources).locate path importer =
      .error (.pathNotFound shown missing (some (.didYouMean text)))) :
    let scope := ofSources settings sources
    ∃ first rest searched sought m, path.segments = first :: rest ∧
      scope.tree.Searches importer first rest searched sought ∧
      scope.tree.Completes searched.id sought m ∧ m.pathText = text ∧
      scope.Followed importer searched m := by
  intro scope
  have sound : scope.Sound := sound_ofSources settings sources
  rw [locate] at failed
  split at failed
  · cases failed
  · rw [locateShort] at failed
    split at failed <;> cases failed
  · rename_i first rest several segments
    obtain ⟨searched, sought, m, searches, completes, same⟩ := sound.exists_completes mem failed
    refine ⟨first, rest, searched, sought, m, segments, searches, completes, same, ?_⟩
    exact sound.followed mem several searches completes (plain.modules m completes.mem)
      (plain.packages searched searches.mem)

/-- An application with a namesake of one of its modules among its tests, and a library that it
depends on. -/
def straySample : List PackageSource :=
  let file := fun name => (⟨name, none, [], []⟩ : ModuleSource)
  let store : DirectorySource := ⟨"Store", [], [⟨"Disk", [file "Cache"], []⟩]⟩
  let lib : PackageSource := ⟨"lib", [], ⟨"src", [], [⟨"Text", [file "Trim"], []⟩]⟩, none⟩
  [lib, ⟨"app", ["lib"], ⟨"src", [file "Main"], [store]⟩,
    some ⟨"test", [file "MainTest"], [store]⟩⟩]

/-- In the sample all names are plain, and yet what is suggested for a path into the library leads
nowhere; it would lead to the module after the name of the library. -/
theorem suggestion_strays :
    let scope := ofSources .standard straySample
    scope.tree.PlainNames ∧ ∃ main ∈ scope.tree.modules, ∃ trim ∈ scope.tree.modules,
      scope.locate (.parse "lib::Trim") main =
        .error (.pathNotFound "lib::Trim" "Trim" (some (.didYouMean "Text::Trim"))) ∧
      scope.locate (.parse "Text::Trim") main = .error (.pathNotFound "Text::Trim" "Text" none) ∧
      scope.locate (.parse "lib::Text::Trim") main = .ok trim := by
  let trim : Module := ⟨⟨0⟩, "Trim", ["Text", "Trim"], ⟨1⟩, ⟨0⟩, .source, false, [], [], none⟩
  let main : Module := ⟨⟨1⟩, "Main", ["Main"], ⟨2⟩, ⟨1⟩, .source, false, [], [], none⟩
  refine ⟨⟨?_, ?_⟩, main, ?_, trim, ?_, ?_, ?_, ?_⟩
  all_goals decide +kernel

/-- To a test in the sample a production module is suggested, and its namesake is what the test gets
there. -/
theorem suggestion_shadowed :
    let scope := ofSources .standard straySample
    ∃ mainTest ∈ scope.tree.modules, ∃ cache ∈ scope.tree.modules, cache.root = .test ∧
      scope.locate (.parse "Disk::Cache") mainTest =
        .error (.pathNotFound "Disk::Cache" "Disk" (some (.didYouMean "Store::Disk::Cache"))) ∧
      scope.locate (.parse "Store::Disk::Cache") mainTest = .ok cache := by
  let mainTest : Module := ⟨⟨3⟩, "MainTest", ["MainTest"], ⟨5⟩, ⟨1⟩, .test, false, [], [], none⟩
  let cache : Module :=
    ⟨⟨4⟩, "Cache", ["Store", "Disk", "Cache"], ⟨7⟩, ⟨1⟩, .test, false, [], [], none⟩
  refine ⟨mainTest, ?_, cache, ?_, ?_, ?_, ?_⟩
  all_goals decide +kernel

end Scope

end LetModules
