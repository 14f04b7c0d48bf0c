import LetModules.Proofs.Bare.Tree
import LetModules.Proofs.Scope.Locate

/-!
Lookups do not read declarations. In a bare scope the registry and the pairs are those of the scope,
and every path leads where it leads there, or fails for the same cause (`locate_bare`).
-/

namespace LetModules

/-- What is removed from the entries of a list does not matter for a test that cannot see it. -/
theorem filter_map_eq {p : β → Bool} {q : α → Bool} {f : α → β} (same : ∀ a, p (f a) = q a)
    (entries : List α) : (entries.map f).filter p = (entries.filter q).map f :=
  List.filter_map.trans (congrArg _ (List.filter_congr fun a _ => same a))

theorem find?_map_eq {p : β → Bool} {q : α → Bool} {f : α → β} (same : ∀ a, p (f a) = q a)
    (entries : List α) : (entries.map f).find? p = (entries.find? q).map f := by
  rw [List.find?_map, show p ∘ f = q from funext same]

/-- Entries that a function tells apart repeat where their images do. -/
theorem eraseDups_map [DecidableEq α] [DecidableEq β] {f : α → β} : ∀ (entries : List α),
    (∀ a ∈ entries, ∀ b ∈ entries, f a = f b → a = b) →
      (entries.map f).eraseDups = entries.eraseDups.map f
  | [], _ => rfl
  | a :: rest, inj => by
    have others : (rest.map f).filter (fun b => !b == f a) =
        (rest.filter fun b => !b == a).map f := by
      rw [List.filter_map]
      refine congrArg _ (List.filter_congr fun b hb => ?_)
      have same : f b = f a ↔ b = a := ⟨inj b (List.mem_cons_of_mem _ hb) a List.mem_cons_self,
        congrArg f⟩
      simp [same]
    rw [List.map_cons, List.eraseDups_cons, List.eraseDups_cons, List.map_cons, others,
      eraseDups_map]
    intro b hb c hc
    exact inj b (List.mem_cons_of_mem _ (List.mem_of_mem_filter hb)) c
      (List.mem_cons_of_mem _ (List.mem_of_mem_filter hc))
termination_by entries => entries.length
decreasing_by exact Nat.lt_succ_of_le (List.length_filter_le ..)

namespace Directory

theorem plain?_bare (d : Directory) (name : String) :
    d.bare.plain? name = (d.plain? name).map Module.bare := by
  rw [plain?, plain?, plain, plain, bare_modules, filter_map_eq fun _ => rfl]
  exact find?_map_eq (fun _ => rfl) _

theorem fold?_bare (d : Directory) : d.bare.fold? = d.fold?.map Module.bare := by
  rw [fold?, fold?, bare_modules]
  exact find?_map_eq (fun _ => rfl) _

theorem foldNamed?_bare (d : Directory) (name : String) :
    d.bare.foldNamed? name = (d.foldNamed? name).map Module.bare := by
  rw [foldNamed?, foldNamed?, bare_name, fold?_bare]
  split <;> rfl

theorem child?_bare (d : Directory) (name : String) :
    d.bare.child? name = (d.child? name).map bare := by
  rw [child?, child?, bare_children]
  exact find?_map_eq (fun child => by rw [bare_name]) _

theorem arrive_bare (d : Directory) (name : String) :
    d.bare.arrive name = (d.arrive name).map Module.bare := by
  rw [arrive, arrive, plain?_bare, child?_bare]
  cases d.plain? name with
  | some m => rfl
  | none =>
    cases d.child? name with
    | none => rfl
    | some child =>
      simp only [Option.map_none, Option.map_some, fold?_bare, bare_path]
      cases child.fold? <;> rfl

/-- A walk through bare directories passes and misses the same names. -/
theorem walk_bare : ∀ (names : List String) (d : Directory),
    d.bare.walk names = (d.walk names).map Module.bare
  | [], _ => rfl
  | [name], d => d.arrive_bare name
  | name :: next :: rest, d => by
    rw [walk, walk, child?_bare]
    cases d.child? name with
    | none => rfl
    | some child => exact walk_bare (next :: rest) child

theorem modulesNamed_bare (d : Directory) (name : String) :
    d.bare.modulesNamed name = (d.modulesNamed name).map Module.bare := by
  induction d using Directory.induction with
  | step d ih =>
    rw [modulesNamed_eq, modulesNamed_eq, foldNamed?_bare, plain?_bare, bare_children,
      List.map_append, List.map_append, Option.toList_map, Option.toList_map, List.flatMap_map,
      List.map_flatMap]
    exact congrArg _ (List.flatMap_congr ih)

end Directory

/-- The registry of a tree does not depend on declarations. -/
theorem Registry.ofTree_bare (tree : ModuleTree) : ofTree tree.bare = ofTree tree := by
  have edges : ∀ p : Package, edgesOf tree.bare p.bare = edgesOf tree p := by
    intro p
    simp only [edgesOf, ModuleTree.packageNamed?_bare, Option.map_map]
    rfl
  rw [ofTree, ofTree, ModuleTree.bare, List.map_map, List.flatMap_map]
  exact congrArg (Registry.mk _) (List.flatMap_congr fun p _ => edges p)

/-- The pair, with bare modules. -/
def Pair.bare (pair : Pair) : Pair := ⟨pair.test.bare, pair.production.bare⟩

namespace ModuleTree

variable (tree : ModuleTree)

theorem packageName_bare (id : PackageId) : tree.bare.packageName id = tree.packageName id := by
  rw [packageName, packageName, package?_bare, Option.map_map]
  rfl

theorem displayPath_bare (m : Module) : tree.bare.displayPath m.bare = tree.displayPath m := by
  rw [displayPath, displayPath, show m.bare.package = m.package from rfl, packageName_bare]
  rfl

theorem nameOf_bare (m : Module) : tree.bare.nameOf m.bare = tree.nameOf m := by
  rw [nameOf, nameOf, show m.bare.package = m.package from rfl, packageName_bare]
  rfl

theorem production?_bare (package : PackageId) (path : List String) :
    tree.bare.production? package path = (tree.production? package path).map Module.bare :=
  find?_map_eq (fun _ => rfl) _

end ModuleTree

namespace Pairing

variable (tree : ModuleTree) (settings : Settings)

theorem claimed?_bare (t : Module) :
    claimed? tree.bare settings t.bare = (claimed? tree settings t).map Module.bare := by
  rw [claimed?, claimed?, show t.bare.name = t.name from rfl]
  cases settings.productionName? t.name with
  | none => rfl
  | some name =>
    simp only [ModuleTree.production?_bare, show t.bare.package = t.package from rfl,
      show t.bare.path = t.path from rfl]
    split <;> cases tree.production? t.package (t.path.dropLast ++ [name]) <;> rfl

theorem tests_bare : tests tree.bare = (tests tree).map Module.bare := by
  have kept : tree.bare.modules.filter (·.isTest) =
      (tree.modules.filter (·.isTest)).map Module.bare := filter_map_eq (fun _ => rfl) _
  rw [tests, tests, kept]
  exact (List.map_mergeSort (f := Module.bare) fun _ _ _ _ => rfl).symm

theorem testOf_bare (pairs : Pairings) (id : ModuleId) :
    Pairings.testOf (pairs.map Pair.bare) id = (pairs.testOf id).map Module.bare := by
  rw [Pairings.testOf, Pairings.testOf, find?_map_eq (fun _ => rfl), Option.map_map, Option.map_map]
  rfl

/-- Bare tests are paired with the bare modules that they test. -/
theorem pairs_bare : (ofTree tree.bare settings).pairs =
    (ofTree tree settings).pairs.map Pair.bare := by
  have run : ∀ (entries : List Module) (progress progress' : Progress),
      progress'.pairs = progress.pairs.map Pair.bare →
        ((entries.map Module.bare).foldl (step tree.bare settings) progress').pairs =
          (entries.foldl (step tree settings) progress).pairs.map Pair.bare := by
    intro entries
    induction entries with
    | nil => exact fun _ _ same => same
    | cons t rest ih =>
      intro progress progress' same
      refine ih _ _ ?_
      rw [step, step, claimed?_bare]
      cases claimed? tree settings t with
      | none => exact same
      | some production =>
        simp only [Option.map_some, same, testOf_bare,
          show production.bare.id = production.id from rfl]
        cases progress.pairs.testOf production.id with
        | none => simp [Pair.bare]
        | some winner => rfl
  rw [ofTree, ofTree, tests_bare]
  exact run (tests tree) ⟨[], []⟩ ⟨[], []⟩ rfl

end Pairing

namespace Scope

/-- The scope with a bare tree and bare pairs. -/
def bare (scope : Scope) : Scope :=
  ⟨scope.tree.bare, scope.registry, scope.pairings.map Pair.bare⟩

theorem ofTree_bare (settings : Settings) (tree : ModuleTree) :
    ofTree settings tree.bare = (ofTree settings tree).bare := by
  rw [ofTree, bare, Registry.ofTree_bare, Pairing.pairs_bare]
  rfl

variable (scope : Scope)

theorem anchors_bare (importer : Module) :
    scope.bare.anchors importer.bare = (scope.anchors importer).map Directory.bare := by
  have production : (scope.bare.pairings.productionOf importer.bare.id).map (·.directory) =
      (scope.pairings.productionOf importer.id).map (·.directory) := by
    rw [Pairings.productionOf, Pairings.productionOf, bare, find?_map_eq (fun _ => rfl)]
    simp only [Option.map_map]
    rfl
  rw [anchors, anchors, production, List.map_filterMap]
  exact List.filterMap_congr fun id _ => scope.tree.directory?_bare id

theorem inScope_bare (sound : scope.Sound) {importer : Module}
    (mem : importer ∈ scope.tree.modules) (name : String) :
    scope.bare.inScope name importer.bare = (scope.inScope name importer).map Module.bare := by
  have reached : ∀ {m}, m ∈ (scope.anchors importer).flatMap (·.modulesNamed name) →
      m ∈ scope.tree.modules := fun hm => ((sound.mem_inScope mem).mp (List.mem_eraseDups.mpr hm)).1
  rw [inScope, inScope, anchors_bare, List.flatMap_map]
  simp only [Directory.modulesNamed_bare]
  rw [← List.map_flatMap]
  refine eraseDups_map _ fun m hm n hn same => ?_
  exact sound.tree.module_inj (reached hm) (reached hn) (congrArg (·.id) same)

theorem candidates_bare (package : PackageId) (name : String) :
    scope.bare.candidates package name = (scope.candidates package name).map Module.bare :=
  filter_map_eq (fun _ => rfl) _

theorem locateShort_bare (sound : scope.Sound) {importer : Module}
    (mem : importer ∈ scope.tree.modules) (name : String) :
    scope.bare.locateShort name importer.bare =
      (scope.locateShort name importer).map Module.bare := by
  have shown : scope.bare.tree.displayPath importer.bare = scope.tree.displayPath importer :=
    scope.tree.displayPath_bare importer
  rw [locateShort, locateShort, scope.inScope_bare sound mem, shown, candidates_bare]
  rcases scope.inScope name importer with _ | ⟨m, _ | ⟨n, rest⟩⟩
  · simp [Except.map, Function.comp_def, Module.pathText, Module.bare]
  · rfl
  · simp [Except.map, Function.comp_def, Module.pathText, Module.bare]

theorem ownRoots_bare (importer : Module) :
    scope.bare.ownRoots importer.bare = (scope.ownRoots importer).map Directory.bare := by
  rw [ownRoots, ownRoots, show importer.bare.root = importer.root from rfl,
    show scope.bare.tree.package? importer.bare.package =
      (scope.tree.package? importer.package).map Package.bare from scope.tree.package?_bare _]
  cases scope.tree.package? importer.package with
  | none => rfl
  | some p =>
    cases importer.root with
    | source => rfl
    | test => cases test : p.test <;> simp [Package.bare, test]

theorem walkFirst_bare (names : List String) : ∀ roots : List Directory,
    walkFirst names (roots.map Directory.bare) = (walkFirst names roots).map Module.bare
  | [] => rfl
  | root :: rest => by
    have ih := walkFirst_bare names rest
    rw [List.map_cons, walkFirst, walkFirst, Directory.walk_bare]
    cases root.walk names with
    | ok m => rfl
    | error miss =>
      cases rest with
      | nil => rfl
      | cons next rest =>
        simp only [Except.map] at ih ⊢
        rw [ih]
        cases walkFirst names (next :: rest) <;> rfl

theorem missed_bare (path : ModulePath) (package : PackageId) (segments : List String)
    (miss : Directory.Miss) :
    scope.bare.missed path package segments miss = scope.missed path package segments miss := by
  have completion : scope.bare.completion? package segments =
      (scope.completion? package segments).map Module.bare := by
    have fitting : scope.bare.tree.modules.filter (fun m => m.package = package &&
          m.isProduction && segments.length < m.path.length && segments.isSuffixOf m.path) =
        (scope.tree.modules.filter fun m => m.package = package &&
          m.isProduction && segments.length < m.path.length &&
            segments.isSuffixOf m.path).map Module.bare := filter_map_eq (fun _ => rfl) _
    rw [completion?, completion?, fitting]
    generalize scope.tree.modules.filter _ = entries
    rcases entries with _ | ⟨m, _ | ⟨n, rest⟩⟩ <;> rfl
  rw [missed, missed, completion, Option.map_map]
  rfl

theorem locateFull_bare (path : ModulePath) (first : String) (rest : List String)
    (importer : Module) : scope.bare.locateFull path first rest importer.bare =
      (scope.locateFull path first rest importer).map Module.bare := by
  have other : scope.bare.otherPackage? first importer.bare = scope.otherPackage? first importer :=
    rfl
  rw [locateFull, locateFull, ownRoots_bare, walkFirst_bare, other]
  cases walkFirst (first :: rest) (scope.ownRoots importer) with
  | ok m => rfl
  | error miss =>
    cases scope.otherPackage? first importer with
    | none => exact congrArg Except.error (scope.missed_bare ..)
    | some package =>
      have source : ((scope.bare.tree.package? package).map (·.source)).toList =
          ((scope.tree.package? package).map (·.source)).toList.map Directory.bare := by
        rw [bare, ModuleTree.package?_bare]
        cases scope.tree.package? package <;> rfl
      have depends : scope.bare.registry.dependsOn importer.bare.package package =
          scope.registry.dependsOn importer.package package := rfl
      simp only [Except.map, depends, source, walkFirst_bare]
      split
      · cases walkFirst rest ((scope.tree.package? package).map (·.source)).toList with
        | ok m => rfl
        | error miss => exact congrArg Except.error (scope.missed_bare ..)
      · rfl

/-- A path leads from a bare module where it leads from the module, or fails for the same cause. -/
theorem locate_bare (sound : scope.Sound) {importer : Module}
    (mem : importer ∈ scope.tree.modules) (path : ModulePath) :
    scope.bare.locate path importer.bare = (scope.locate path importer).map Module.bare := by
  rw [locate, locate]
  rcases path.segments with _ | ⟨first, _ | ⟨next, rest⟩⟩
  · rfl
  · exact scope.locateShort_bare sound mem first
  · exact scope.locateFull_bare path first (next :: rest) importer

end Scope

end LetModules
