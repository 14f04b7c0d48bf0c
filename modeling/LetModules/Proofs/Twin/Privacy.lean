import LetModules.Proofs.Bare.Locate
import LetModules.Proofs.Twin.Outcome
import LetModules.Proofs.Twin.Tree

/-!
Private declarations are unobservable. If packages are retouched, that is, if one file gets other
private declarations, then the trees are the same but for declarations; so lookups fail for the very
same causes, and whatever is resolved is the same but for the ids of declarations. Only the test of
the retouched module can tell, where it imports from it.
-/

namespace LetModules

/-- Files that differ in private declarations only, of which neither declares a name twice. -/
structure ModuleSource.Retouched (f g : ModuleSource) : Prop where
  name : f.name = g.name
  file : f.file = g.file
  imports : f.imports = g.imports
  offers : openHeaders f.declarations = openHeaders g.declarations
  distinct : (f.declarations.map (·.name)).Nodup
  distinct' : (g.declarations.map (·.name)).Nodup

/-- Directories, with the path `path`, that differ in one retouched file in or below them, the one
that owns `target`. -/
inductive DirectorySource.Retouched : Bool → List String → List String → DirectorySource →
    DirectorySource → Prop
  | here {isRoot path name before f g after directories} (retouched : ModuleSource.Retouched f g) :
    Retouched isRoot path (ownedPath isRoot name path f)
      ⟨name, before ++ f :: after, directories⟩ ⟨name, before ++ g :: after, directories⟩
  | deeper {isRoot path target name files before child child' after}
    (inside : Retouched false (path ++ [child.name]) target child child') :
    Retouched isRoot path target
      ⟨name, files, before ++ child :: after⟩ ⟨name, files, before ++ child' :: after⟩

/-- Packages that differ in one retouched file, that of the module `target`. -/
inductive PackageSource.Retouched : ModuleName → PackageSource → PackageSource → Prop
  | source {name dependencies source source' test path}
    (inside : DirectorySource.Retouched true [] path source source') :
    Retouched ⟨name, .source, path⟩
      ⟨name, dependencies, source, test⟩ ⟨name, dependencies, source', test⟩
  | test {name dependencies source test test' path}
    (inside : DirectorySource.Retouched true [] path test test') :
    Retouched ⟨name, .test, path⟩
      ⟨name, dependencies, source, some test⟩ ⟨name, dependencies, source, some test'⟩

/-- Lists of packages that differ in one retouched file, that of the module `target`. -/
inductive Retouched (target : ModuleName) : List PackageSource → List PackageSource → Prop
  | package {before p q after} (retouched : PackageSource.Retouched target p q) :
    Retouched target (before ++ p :: after) (before ++ q :: after)

/-- Profiles that look alike, and are the same unless they are those of `target`. -/
structure Profile.Retouched (target : ModuleName) (x y : Profile) : Prop where
  alike : x.Alike y
  same : x.name ≠ target → x = y

theorem Profile.Retouched.forall₂_self (target : ModuleName) (profiles : List Profile) :
    List.Forall₂ (Profile.Retouched target) profiles profiles :=
  List.forall₂_same.mpr fun x _ => ⟨.refl x, fun _ => rfl⟩

/-- Packages that have the same profile but for the module `target`. -/
structure PackageProfile.Retouched (target : ModuleName) (p q : PackageProfile) : Prop where
  name : p.name = q.name
  dependencies : p.dependencies = q.dependencies
  modules : List.Forall₂ (Profile.Retouched target) p.modules q.modules

theorem PackageProfile.Retouched.refl (target : ModuleName) (p : PackageProfile) :
    p.Retouched target p :=
  ⟨rfl, rfl, Profile.Retouched.forall₂_self target p.modules⟩

theorem PackageProfile.Retouched.alike {target : ModuleName} {p q : PackageProfile}
    (h : p.Retouched target q) : p.Alike q := by
  refine ⟨h.name, h.dependencies, fun x hx => ?_, fun y hy => ?_⟩
  · obtain ⟨y, hy, same⟩ := exists_right_of_forall₂ h.modules x hx
    exact ⟨y, hy, same.alike⟩
  · obtain ⟨x, hx, same⟩ := exists_right_of_forall₂ h.modules.flip y hy
    exact ⟨x, hx, same.alike⟩

namespace ModuleSource.Retouched

variable {f g : ModuleSource} (h : f.Retouched g)

include h

theorem bare : f.bare = g.bare := by
  rw [ModuleSource.bare, ModuleSource.bare, h.name, h.file, h.imports]

theorem profile (package : String) (root : Root) (path : List String) (folds : Bool) :
    (f.profile package root path folds).Retouched ⟨package, root, path⟩
      (g.profile package root path folds) := by
  have kept : ∀ {file : ModuleSource}, (file.declarations.map (·.name)).Nodup →
      file.kept = file.declarations :=
    fun distinct => firstsBy_eq_self distinct fun _ _ => List.not_mem_nil
  refine ⟨⟨rfl, rfl, h.name, h.file, h.imports, ?_⟩, fun other => absurd rfl other⟩
  rw [ModuleSource.profile, ModuleSource.profile, kept h.distinct, kept h.distinct']
  exact h.offers

end ModuleSource.Retouched

namespace DirectorySource.Retouched

variable {isRoot : Bool} {path target : List String} {s t : DirectorySource}

theorem bare (h : Retouched isRoot path target s t) : s.bare = t.bare := by
  induction h with
  | here retouched => simp [DirectorySource.bare, retouched.bare]
  | deeper _ ih => simp [DirectorySource.bare, bares_eq_map, ih]

theorem name (h : Retouched isRoot path target s t) : s.name = t.name := by
  cases h <;> rfl

/-- Of the profiles in and below retouched directories only that of the target differs. -/
theorem profiles (h : Retouched isRoot path target s t) (package : String) (root : Root) :
    List.Forall₂ (Profile.Retouched ⟨package, root, target⟩)
      (s.profiles package root isRoot path) (t.profiles package root isRoot path) := by
  have same := fun {target} => Profile.Retouched.forall₂_self target
  induction h with
  | @here isRoot path name before f g after directories retouched =>
    have placed : g.profile package root (ownedPath isRoot name path g) (foldsInto isRoot name g) =
        g.profile package root (ownedPath isRoot name path f) (foldsInto isRoot name f) := by
      rw [ownedPath, ownedPath, foldsInto, foldsInto, retouched.name]
    rw [DirectorySource.profiles, DirectorySource.profiles, List.map_append, List.map_append,
      List.map_cons, List.map_cons, placed]
    exact List.rel_append
      (List.rel_append (same _) (.cons (retouched.profile ..) (same _))) (same _)
  | deeper inside ih =>
    rw [DirectorySource.profiles, DirectorySource.profiles, childProfiles_eq_flatMap,
      childProfiles_eq_flatMap, List.flatMap_append, List.flatMap_append, List.flatMap_cons,
      List.flatMap_cons, ← inside.name]
    exact List.rel_append (same _)
      (List.rel_append (same _) (List.rel_append ih (same _)))

end DirectorySource.Retouched

namespace PackageSource.Retouched

variable {target : ModuleName} {p q : PackageSource}

theorem bare (h : p.Retouched target q) : p.bare = q.bare := by
  cases h with
  | source inside => simp [PackageSource.bare, inside.bare]
  | test inside => simp [PackageSource.bare, inside.bare]

theorem profile (h : p.Retouched target q) : p.profile.Retouched target q.profile := by
  have same := fun {target} => Profile.Retouched.forall₂_self target
  cases h with
  | source inside => exact ⟨rfl, rfl, List.rel_append (inside.profiles ..) (same _)⟩
  | test inside =>
    refine ⟨rfl, rfl, List.rel_append (same _) ?_⟩
    simpa using inside.profiles ..

end PackageSource.Retouched

/-- If packages are replaced by such of the same names and conflicts, the same places are accepted.
-/
theorem Growth.forall₂_accepted {R : PackageSource → PackageSource → Prop}
    (same : ∀ p q, R p q → p.name = q.name ∧ p.conflicts = q.conflicts)
    {sources sources' : List PackageSource} (related : List.Forall₂ R sources sources') :
    ∀ taken, List.Forall₂ R (accepted taken sources) (accepted taken sources') := by
  induction related with
  | nil => exact fun _ => .nil
  | @cons p q rest rest' head _ ih =>
    intro taken
    obtain ⟨name, conflicts⟩ := same p q head
    rw [accepted, accepted, name, conflicts]
    split
    · exact .cons head (ih _)
    · exact ih taken

/-- Sound trees that are the same but for declarations, in which only the module `target` has
others. -/
structure ModuleTree.Retouched (target : ModuleName) (S T : ModuleTree) : Prop where
  soundLeft : S.Sound
  soundRight : T.Sound
  bare : S.bare = T.bare
  packages : List.Forall₂ (PackageProfile.Retouched target) (S.packages.map (·.profile))
    (T.packages.map (·.profile))

/-- Retouched packages make such trees. -/
theorem Retouched.tree {target : ModuleName} {sources sources' : List PackageSource}
    (h : Retouched target sources sources') : (Growth.ofSources sources).tree.Retouched target
      (Growth.ofSources sources').tree := by
  let Same : PackageSource → PackageSource → Prop := fun p q =>
    p.bare = q.bare ∧ p.profile.Retouched target q.profile
  have related : List.Forall₂ Same sources sources' := by
    obtain ⟨retouched⟩ := h
    have others : ∀ l : List PackageSource, List.Forall₂ Same l l := fun l =>
      List.forall₂_same.mpr fun p _ => ⟨rfl, .refl _ _⟩
    exact List.rel_append (others _) (.cons ⟨retouched.bare, retouched.profile⟩ (others _))
  refine ⟨Growth.sound_ofSources _, Growth.sound_ofSources _, ?_, ?_⟩
  · have bare : sources.map PackageSource.bare = sources'.map PackageSource.bare := by
      rw [← List.forall₂_eq_eq_eq, List.forall₂_map_left_iff, List.forall₂_map_right_iff]
      exact related.imp fun _ _ same => same.1
    rw [← Growth.tree_ofSources_bare, ← Growth.tree_ofSources_bare, bare]
  · rw [Growth.map_profile_ofSources, Growth.map_profile_ofSources, List.forall₂_map_left_iff,
      List.forall₂_map_right_iff]
    have kept := Growth.forall₂_accepted (R := Same) (fun p q same => ⟨same.2.name, by
      rw [← p.conflicts_bare, ← q.conflicts_bare, same.1]⟩) related []
    exact kept.imp fun _ _ same => same.2

namespace ModuleTree.Retouched

variable {target : ModuleName} {S T : ModuleTree} (h : S.Retouched target T)

include h

theorem alike : S.Alike T := by
  refine ⟨h.soundLeft, h.soundRight, fun p hp => ?_, fun q hq => ?_⟩
  · obtain ⟨_, there, same⟩ :=
      exists_right_of_forall₂ h.packages p.profile (List.mem_map_of_mem hp)
    obtain ⟨q, hq, rfl⟩ := List.mem_map.mp there
    exact ⟨q, hq, same.alike⟩
  · obtain ⟨_, there, same⟩ :=
      exists_right_of_forall₂ h.packages.flip q.profile (List.mem_map_of_mem hq)
    obtain ⟨p, hp, rfl⟩ := List.mem_map.mp there
    exact ⟨p, hp, same.alike⟩

/-- Twins have the same profile, unless they are the target. -/
theorem profileOf {m n : Module} (twins : Twins S T m n) :
    (S.profileOf m).Retouched target (T.profileOf n) := by
  obtain ⟨p, hp, hx⟩ := h.soundLeft.exists_profileOf_iff.mp ⟨m, twins.left, rfl⟩
  obtain ⟨_, there, packages⟩ :=
    exists_right_of_forall₂ h.packages p.profile (List.mem_map_of_mem hp)
  obtain ⟨q, hq, rfl⟩ := List.mem_map.mp there
  obtain ⟨y, hy, same⟩ := exists_right_of_forall₂ packages.modules _ hx
  obtain ⟨k, hk, rfl⟩ := h.soundRight.exists_profileOf_iff.mpr ⟨q, hq, hy⟩
  have twins' : Twins S T m k := ⟨twins.left, hk, same.alike.name⟩
  rwa [← (h.alike.unique twins' twins).mp rfl]

/-- Twins are the same but for declarations. -/
theorem bare_eq {m n : Module} (twins : Twins S T m n) : m.bare = n.bare := by
  have modules : S.modules.map Module.bare = T.modules.map Module.bare :=
    congrArg ModuleTree.modules h.bare
  have listed : m.bare ∈ S.modules.map Module.bare := List.mem_map_of_mem twins.left
  rw [modules] at listed
  obtain ⟨k, hk, same⟩ := List.mem_map.mp listed
  have named : S.nameOf m = T.nameOf k := by
    rw [← S.nameOf_bare, ← T.nameOf_bare, h.bare, same]
  have twins' : Twins S T m k := ⟨twins.left, hk, named⟩
  rw [← same, (h.alike.unique twins' twins).mp rfl]

/-- Modules of one id are twins. -/
theorem twins_of_id_eq {m n : Module} (hm : m ∈ S.modules) (hn : n ∈ T.modules)
    (same : m.id = n.id) : Twins S T m n := by
  obtain ⟨k, twins, -⟩ := h.alike.exists_twin hm
  have id_eq : k.id = m.id := (congrArg (·.id) (h.bare_eq twins)).symm
  rwa [h.soundRight.module_inj hn twins.right (same.symm.trans id_eq.symm)]

/-- Lookups from twins fail for the same cause. -/
theorem cause_eq (settings : Settings) {m n : Module} (twins : Twins S T m n) {path : ModulePath}
    {cause cause' : Cause} (failed : (Scope.ofTree settings S).locate path m = .error cause)
    (failed' : (Scope.ofTree settings T).locate path n = .error cause') : cause = cause' := by
  have left := (Scope.ofTree settings S).locate_bare (Scope.sound_ofTree settings h.soundLeft)
    twins.left path
  have right := (Scope.ofTree settings T).locate_bare (Scope.sound_ofTree settings h.soundRight)
    twins.right path
  rw [← Scope.ofTree_bare, failed, h.bare, h.bare_eq twins] at left
  rw [← Scope.ofTree_bare, failed'] at right
  exact Except.error.inj (left.symm.trans right)

theorem correspondence (settings : Settings) : Correspondence (Twins S T) id
    (Scope.ofTree settings S) (Scope.ofTree settings T) :=
  h.alike.correspondence_ofTree settings id fun _ _ twins _ _ _ failed failed' =>
    h.cause_eq settings twins failed failed'

end ModuleTree.Retouched

/-- The declarations are the same but for their ids. -/
structure Declaration.Renumbered (d e : Declaration) : Prop where
  header : d.toDeclarationHeader = e.toDeclarationHeader
  owner : d.owner = e.owner

/-- The exports are the same but for the ids of declarations. -/
structure Export.Renumbered (x y : Export) : Prop where
  name : x.name = y.name
  published : x.published.Renumbered y.published
  origin : x.origin.Renumbered y.origin

/-- The bindings are the same but for the ids of declarations. -/
structure Binding.Renumbered (b b' : Binding) : Prop where
  localName : b.localName = b'.localName
  imported : b.imported = b'.imported
  declaration : b.declaration.Renumbered b'.declaration
  via : b.via.Renumbered b'.via
  target : b.target.id = b'.target.id
  span : b.span = b'.span

namespace Resolution

/-- By its statement `i` the importer imports from the module `target`, which it tests, and which
declares something else in the other resolution. -/
def Exempt (target : ModuleName) (r r' : Resolution) (importer : Module) (i : Nat) : Prop :=
  ∃ statement m n, importer.imports[i]? = some statement ∧
    r.locate statement.path importer = .ok m ∧ ⟨importer, m⟩ ∈ r.pairings ∧
      r.tree.nameOf m = target ∧ r'.tree.module? m.id = some n ∧ m.headers ≠ n.headers

/-- Two resolutions with the same modules agree in everything but the ids of declarations, and what
the test of the module `target` imports from that. -/
structure SameBut (target : ModuleName) (r r' : Resolution) : Prop where
  modules : r.tree.modules.map (fun m => (m.id, r.tree.nameOf m)) =
    r'.tree.modules.map fun m => (m.id, r'.tree.nameOf m)
  exports : ∀ m ∈ r.tree.modules, ∀ n ∈ r'.tree.modules, m.id = n.id →
    List.Forall₂ Export.Renumbered (r.exports.ofModule r.pairings m)
      (r'.exports.ofModule r'.pairings n)
  visible : ∀ m ∈ r.tree.modules, ∀ n ∈ r'.tree.modules, m.id = n.id →
    (r.visibleModules m).map (·.id) = (r'.visibleModules n).map (·.id)
  sites : ∀ m ∈ r.tree.modules, ∀ n ∈ r'.tree.modules, m.id = n.id → ∀ i j,
    ¬ Exempt target r r' m i → Option.Rel (Agree Binding.Renumbered id)
      (r.binding? ⟨m.id, i, j⟩) (r'.binding? ⟨n.id, i, j⟩)

end Resolution

namespace ModuleTree.Retouched

variable {target : ModuleName} {S T : ModuleTree} (h : S.Retouched target T)

include h

theorem modules_eq : S.modules.map (fun m => (m.id, S.nameOf m)) =
    T.modules.map fun m => (m.id, T.nameOf m) := by
  have bare : ∀ tree : ModuleTree, tree.modules.map (fun m => (m.id, tree.nameOf m)) =
      tree.bare.modules.map fun m => (m.id, tree.bare.nameOf m) := by
    intro tree
    rw [show tree.bare.modules = tree.modules.map Module.bare from rfl, List.map_map]
    exact List.map_congr_left fun m _ => Prod.ext rfl (tree.nameOf_bare m).symm
  rw [bare S, bare T, h.bare]

theorem declaration_renumbered {d e : Declaration} (copied : Copied (Twins S T) d e) :
    d.Renumbered e := by
  obtain ⟨m, n, twins, hd, he, same⟩ := copied
  refine ⟨same, ?_⟩
  rw [h.soundLeft.owner_eq twins.left hd, h.soundRight.owner_eq twins.right he]
  exact congrArg (·.id) (h.bare_eq twins)

theorem export_renumbered {x y : Export} (copied : x.Copied (Twins S T) y) : x.Renumbered y :=
  ⟨copied.name, h.declaration_renumbered copied.published, h.declaration_renumbered copied.origin⟩

theorem binding_renumbered {b b' : Binding} (copied : b.Copied (Twins S T) b') :
    b.Renumbered b' :=
  ⟨copied.localName, copied.imported, h.declaration_renumbered copied.declaration,
    h.declaration_renumbered copied.via, congrArg (·.id) (h.bare_eq copied.target), copied.span⟩

end ModuleTree.Retouched

/-- What a file declares privately does not matter for anything but what the test of its module
imports from that. -/
theorem sameBut_of_retouched (settings : Settings) {target : ModuleName}
    {sources sources' : List PackageSource} (retouched : Retouched target sources sources') :
    (Resolution.ofSources settings sources).SameBut target
      (Resolution.ofSources settings sources') := by
  have h := retouched.tree
  have c := h.correspondence settings
  constructor
  case modules => exact h.modules_eq
  case exports =>
    intro m hm n hn same
    exact (c.forall₂_ofModule (h.twins_of_id_eq hm hn same)).imp fun _ _ copied =>
      h.export_renumbered copied
  case visible =>
    intro m hm n hn same
    have names := c.map_nameOf_visibleModules (h.twins_of_id_eq hm hn same)
    rw [← List.forall₂_eq_eq_eq, List.forall₂_map_left_iff, List.forall₂_map_right_iff]
    refine forall₂_of_map_eq names fun k hk l hl named =>
      congrArg (·.id) (h.bare_eq ⟨?_, ?_, named⟩)
    · exact ((c.left.mem_visibleModules hm).mp hk).1.mem
    · exact ((c.right.mem_visibleModules hn).mp hl).1.mem
  case sites =>
    intro m hm n hn same i j counts
    have twins := h.twins_of_id_eq hm hn same
    have sites := c.rel_binding? twins i j fun statement k l listed twins' located paired => by
      by_contra differ
      refine counts ⟨statement, k, l, listed, located, paired, ?_, ?_, differ⟩
      · by_contra other
        exact differ (congrArg Profile.headers ((h.profileOf twins').same other))
      · exact h.soundRight.module?_eq_some_iff.mpr
          ⟨twins'.right, (congrArg (·.id) (h.bare_eq twins')).symm⟩
    refine rel_imp (fun _ _ agree => ?_) sites
    refine agree.imp (fun _ _ copied => h.binding_renumbered copied) fun p p' alike => ?_
    cases p; cases p'
    simpa using alike

/-- A module with a public declaration and the given others, a module that re-exports the public
one, and a test of the first that imports from both. -/
def Retouched.sample (others : List DeclarationHeader) : List PackageSource :=
  let store : ModuleSource := ⟨"Store", none, ⟨"get", .public, .function, none, none⟩ :: others, []⟩
  let api : ModuleSource :=
    ⟨"Api", none, [⟨"get", .public, .reexport, some ⟨["Store"], none⟩, none⟩], []⟩
  let storeTest : ModuleSource := ⟨"StoreTest", none, [],
    [⟨⟨["Store"], none⟩, [⟨"key", none, none⟩], none⟩,
      ⟨⟨["Api"], none⟩, [⟨"get", none, none⟩], none⟩]⟩
  [⟨"app", [], ⟨"src", [store, api], []⟩, some ⟨"test", [storeTest], []⟩⟩]

/-- A private function is replaced by a private re-export. The test of the module no longer finds
the function, but that is all. -/
theorem sameBut_of_retouched_sample :
    let sources := Retouched.sample [⟨"key", .private, .function, none, none⟩]
    let sources' := Retouched.sample [⟨"look", .private, .reexport, some ⟨["Api"], none⟩, none⟩]
    Retouched ⟨"app", .source, ["Store"]⟩ sources sources' ∧
      ((Resolution.ofSources .standard sources).binding? ⟨⟨2⟩, 0, 0⟩).any (·.isOk) = true ∧
      ((Resolution.ofSources .standard sources').binding? ⟨⟨2⟩, 0, 0⟩).any (·.isOk) = false ∧
      (Resolution.ofSources .standard sources).SameBut ⟨"app", .source, ["Store"]⟩
        (Resolution.ofSources .standard sources') := by
  intro sources sources'
  have file : ModuleSource.Retouched
      ⟨"Store", none, [⟨"get", .public, .function, none, none⟩,
        ⟨"key", .private, .function, none, none⟩], []⟩
      ⟨"Store", none, [⟨"get", .public, .function, none, none⟩,
        ⟨"look", .private, .reexport, some ⟨["Api"], none⟩, none⟩], []⟩ :=
    ⟨rfl, rfl, rfl, by decide, by decide, by decide⟩
  have inside := @DirectorySource.Retouched.here true [] "src" [] _ _
    [⟨"Api", none, [⟨"get", .public, .reexport, some ⟨["Store"], none⟩, none⟩], []⟩] [] file
  have retouched : Retouched ⟨"app", .source, ["Store"]⟩ sources sources' :=
    @Retouched.package _ [] _ _ [] (.source inside)
  exact ⟨retouched, by decide +kernel, by decide +kernel, sameBut_of_retouched .standard retouched⟩

end LetModules
