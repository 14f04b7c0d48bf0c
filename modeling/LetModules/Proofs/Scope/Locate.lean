import LetModules.Proofs.Scope.Sound

/-!
Which module a path names. A bare name names the one module of that name that the importer reaches
(`locateShort_eq_ok_iff`); a longer path names the module with that path in the importer's package,
or else the production module with the rest of it in a dependency (`locateFull_eq_ok_iff`). Both are
said of packages, roots and paths only, without a word about ids.
-/

namespace LetModules

theorem nodup_eraseDups [BEq α] [LawfulBEq α] : ∀ entries : List α, entries.eraseDups.Nodup
  | [] => List.nodup_nil
  | a :: rest => by
    rw [List.eraseDups_cons, List.nodup_cons]
    refine ⟨fun again => ?_, nodup_eraseDups _⟩
    have other := List.mem_eraseDups.mp again
    simp at other
termination_by entries => entries.length
decreasing_by exact Nat.lt_succ_of_le (List.length_filter_le ..)

namespace Scope

/-- The importer, or the module it tests, has `m` in or below its directory. -/
def Reaches (scope : Scope) (importer m : Module) : Prop :=
  importer.Encloses m ∨
    ∃ production, ⟨importer, production⟩ ∈ scope.pairings ∧ production.Encloses m

/-- The module of the importer's package with a path: under the importer's own root, or a production
module if there is none. -/
structure Own (scope : Scope) (importer : Module) (names : List String) (m : Module) : Prop where
  mem : m ∈ scope.tree.modules
  package : m.package = importer.package
  path : m.path = names
  root : m.root = importer.root ∨ m.root = .source ∧ ∀ n ∈ scope.tree.modules,
    n.package = importer.package → n.root = importer.root → n.path ≠ names

/-- The production module with a path in another package, on which the importer's depends. -/
structure Foreign (scope : Scope) (importer : Module) (name : String) (names : List String)
    (m : Module) : Prop where
  mem : m ∈ scope.tree.modules
  package : ∃ p ∈ scope.tree.packages, ∃ q ∈ scope.tree.packages, p.id = importer.package ∧
    q.id = m.package ∧ q.name = name ∧ p.id ≠ q.id ∧ q.name ∈ p.dependencies
  root : m.root = .source
  path : m.path = names

/-- What is foreign lies in another package. -/
theorem Foreign.package_ne {scope : Scope} {importer m : Module} {name : String}
    {names : List String} (foreign : scope.Foreign importer name names m) :
    m.package ≠ importer.package := by
  obtain ⟨p, -, q, -, here, there, -, differ, -⟩ := foreign.package
  exact fun same => differ (here.trans (same.symm.trans there.symm))

theorem toOption_eq_some_iff {ε : Type} {found : Except ε α} {a : α} :
    found.toOption = some a ↔ found = .ok a := by
  cases found <;> simp [Except.toOption]

/-- Of several roots the first counts from which the walk finds something. -/
theorem toOption_walkFirst (names : List String) : ∀ roots : List Directory,
    (walkFirst names roots).toOption = roots.findSome? fun r => (r.walk names).toOption
  | [] => rfl
  | root :: rest => by
    have ih := toOption_walkFirst names rest
    rw [walkFirst, List.findSome?_cons]
    cases root.walk names with
    | ok m => rfl
    | error miss =>
      rw [show (Except.error miss : Except _ Module).toOption = none from rfl, ← ih]
      cases rest with
      | nil => rfl
      | cons next rest =>
        dsimp only
        cases walkFirst names (next :: rest) <;> rfl

/-- A bare name names the module that it reaches, if that is the only one. -/
theorem locateShort_eq_ok_iff_inScope {scope : Scope} {name : String} {importer target : Module} :
    scope.locateShort name importer = .ok target ↔
      ∀ m, m ∈ scope.inScope name importer ↔ m = target := by
  have distinct : (scope.inScope name importer).Nodup := nodup_eraseDups _
  rw [locateShort]
  match scope.inScope name importer, distinct with
  | [], _ => simp
  | [m], _ => simp [eq_comm]
  | m :: n :: rest, distinct =>
    have differ : m ≠ n := fun same => by simp [same] at distinct
    constructor
    · intro found
      simp at found
    · intro only
      exact absurd (((only m).mp (by simp)).trans ((only n).mp (by simp)).symm) differ

/-- A full path that leads nowhere is reported as it was written. -/
theorem exists_of_locateFull_eq_error {scope : Scope} {path : ModulePath} {first : String}
    {rest : List String} {importer : Module} {cause : Cause}
    (failed : scope.locateFull path first rest importer = .error cause) :
    ∃ missing hint, cause = .pathNotFound path.display missing hint := by
  rw [locateFull] at failed
  split at failed
  · cases failed
  · split at failed
    · cases failed
      exact ⟨_, _, rfl⟩
    · split at failed
      · split at failed
        · cases failed
        · cases failed
          exact ⟨_, _, rfl⟩
      · cases failed
        exact ⟨_, _, rfl⟩

/-- A failed lookup is told by its code, whether the path is short or not. -/
theorem code_of_locate_eq_error {scope : Scope} {path : ModulePath} {importer : Module}
    {cause : Cause} (failed : scope.locate path importer = .error cause) :
    cause.code = if path.isShort then "E0101" else "E0102" := by
  rw [locate] at failed
  rw [ModulePath.isShort]
  split at failed
  · rename_i segments
    cases failed
    simp [segments, Cause.code]
  · rename_i name segments
    rw [locateShort] at failed
    split at failed <;> cases failed <;> simp [segments, Cause.code]
  · rename_i first rest several segments
    obtain ⟨missing, hint, rfl⟩ := exists_of_locateFull_eq_error failed
    have long : rest ≠ [] := several
    simp [segments, long, Cause.code]

namespace Sound

variable {scope : Scope} (sound : scope.Sound)

include sound

theorem mem_anchors {importer : Module} (mem : importer ∈ scope.tree.modules) {d : Directory} :
    d ∈ scope.anchors importer ↔ scope.tree.directory? importer.directory = some d ∨
      ∃ p, ⟨importer, p⟩ ∈ scope.pairings ∧ scope.tree.directory? p.directory = some d := by
  rw [anchors, List.mem_filterMap]
  simp only [List.mem_cons, Option.mem_toList, Option.map_eq_some_iff,
    sound.productionOf_eq_some_iff mem]
  constructor
  · rintro ⟨id, rfl | ⟨p, paired, rfl⟩, found⟩
    · exact .inl found
    · exact .inr ⟨p, paired, found⟩
  · rintro (found | ⟨p, paired, found⟩)
    · exact ⟨_, .inl rfl, found⟩
    · exact ⟨_, .inr ⟨p, paired, rfl⟩, found⟩

theorem mem_inScope {importer : Module} (mem : importer ∈ scope.tree.modules) {name : String}
    {m : Module} : m ∈ scope.inScope name importer ↔
      m ∈ scope.tree.modules ∧ m.name = name ∧ scope.Reaches importer m := by
  have at_anchor : ∀ {a : Module}, a ∈ scope.tree.modules →
      ((∃ d, scope.tree.directory? a.directory = some d ∧ m ∈ d.modulesNamed name) ↔
        m ∈ scope.tree.modules ∧ m.name = name ∧ a.Encloses m) := by
    intro a ha
    obtain ⟨d, -, found, -⟩ := sound.tree.exists_directory ha
    simp [found, sound.tree.modulesNamed_eq_filter ha found, and_comm]
  rw [inScope, List.mem_eraseDups, List.mem_flatMap]
  simp only [sound.mem_anchors mem]
  constructor
  · rintro ⟨d, found | ⟨p, paired, found⟩, named⟩
    · obtain ⟨hm, same, encloses⟩ := (at_anchor mem).mp ⟨d, found, named⟩
      exact ⟨hm, same, .inl encloses⟩
    · obtain ⟨hm, same, encloses⟩ :=
        (at_anchor (sound.pairs _ paired).production).mp ⟨d, found, named⟩
      exact ⟨hm, same, .inr ⟨p, paired, encloses⟩⟩
  · rintro ⟨hm, same, encloses | ⟨p, paired, encloses⟩⟩
    · obtain ⟨d, found, named⟩ := (at_anchor mem).mpr ⟨hm, same, encloses⟩
      exact ⟨d, .inl found, named⟩
    · obtain ⟨d, found, named⟩ :=
        (at_anchor (sound.pairs _ paired).production).mpr ⟨hm, same, encloses⟩
      exact ⟨d, .inr ⟨p, paired, found⟩, named⟩

/-- A bare name names the one module of that name that is reached. -/
theorem locateShort_eq_ok_iff {importer : Module} (mem : importer ∈ scope.tree.modules)
    {name : String} {target : Module} : scope.locateShort name importer = .ok target ↔
      ∀ m, m ∈ scope.tree.modules ∧ m.name = name ∧ scope.Reaches importer m ↔ m = target := by
  simp only [← sound.mem_inScope mem, locateShort_eq_ok_iff_inScope]

/-- A walk from the own roots finds the module of the own package. -/
theorem walkFirst_ownRoots_eq_ok_iff {importer : Module} (mem : importer ∈ scope.tree.modules)
    {names : List String} {target : Module} :
    walkFirst names (scope.ownRoots importer) = .ok target ↔ scope.Own importer names target := by
  obtain ⟨p, hp, package, isSome⟩ := sound.tree.exists_package mem
  have walked : ∀ {root r}, p.root? root = some r → ∀ m, r.walk names = .ok m ↔
      m ∈ scope.tree.modules ∧ m.package = importer.package ∧ m.root = root ∧ m.path = names :=
    fun hr m => package ▸ sound.tree.walk_root_eq_ok_iff hp hr
  have source := walked (show p.root? .source = some p.source from rfl)
  have known : scope.tree.package? importer.package = some p :=
    sound.tree.package?_eq_some_iff.mpr ⟨hp, package.symm⟩
  rw [← toOption_eq_some_iff, toOption_walkFirst, ownRoots, known]
  dsimp only
  cases kind : importer.root with
  | source =>
    rw [List.findSome?_singleton, toOption_eq_some_iff, source]
    constructor
    · exact fun ⟨hm, package', root, path⟩ => ⟨hm, package', path, .inl (root.trans kind.symm)⟩
    · rintro ⟨hm, package', path, root⟩
      exact ⟨hm, package', root.elim (·.trans kind) (·.1), path⟩
  | test =>
    obtain ⟨t, test⟩ := Option.isSome_iff_exists.mp isSome
    rw [kind] at test
    have tested := walked test
    rw [show p.test = some t from test, Option.toList_some, List.singleton_append,
      List.findSome?_cons, List.findSome?_singleton]
    cases found : t.walk names with
    | ok m =>
      obtain ⟨hm, package', root, path⟩ := (tested m).mp found
      dsimp only [Except.toOption]
      rw [Option.some.injEq]
      constructor
      · rintro rfl
        exact ⟨hm, package', path, .inl (root.trans kind.symm)⟩
      · rintro ⟨hn, package'', path', root' | ⟨-, absent⟩⟩
        · exact sound.tree.module_eq_of_path_eq hm hn (package'.trans package''.symm)
            (root.trans (kind.symm.trans root'.symm)) (path.trans path'.symm)
        · exact absurd path (absent m hm package' (root.trans kind.symm))
    | error miss =>
      -- nothing under the test root has the path
      have absent : ∀ n ∈ scope.tree.modules, n.package = importer.package →
          n.root = importer.root → n.path ≠ names := by
        intro n hn package' root path
        rw [(tested n).mpr ⟨hn, package', root.trans kind, path⟩] at found
        exact absurd found (by simp)
      rw [show (Except.error miss : Except _ Module).toOption = none from rfl]
      dsimp only
      rw [toOption_eq_some_iff, source]
      constructor
      · exact fun ⟨hm, package', root, path⟩ => ⟨hm, package', path, .inr ⟨root, absent⟩⟩
      · rintro ⟨hm, package', path, root | ⟨root, -⟩⟩
        · exact absurd path (absent _ hm package' root)
        · exact ⟨hm, package', root, path⟩

theorem otherPackage?_eq_some_iff {name : String} {importer : Module} {id : PackageId} :
    scope.otherPackage? name importer = some id ↔
      (∃ q ∈ scope.tree.packages, q.name = name ∧ q.id = id) ∧ id ≠ importer.package := by
  rw [otherPackage?, Option.filter_eq_some_iff, decide_eq_true_eq, sound.registry,
    Registry.lookup_ofTree_eq_some_iff sound.tree]

/-- A walk from the source root of a package finds the production module with the path. -/
theorem walkFirst_source_eq_ok_iff {q : Package} (hq : q ∈ scope.tree.packages)
    {names : List String} {target : Module} :
    walkFirst names ((scope.tree.package? q.id).map (·.source)).toList = .ok target ↔
      target ∈ scope.tree.modules ∧ target.package = q.id ∧ target.root = .source ∧
        target.path = names := by
  have known : scope.tree.package? q.id = some q :=
    sound.tree.package?_eq_some_iff.mpr ⟨hq, rfl⟩
  rw [known, ← toOption_eq_some_iff, toOption_walkFirst, Option.map_some, Option.toList_some,
    List.findSome?_singleton, toOption_eq_some_iff]
  exact sound.tree.walk_root_eq_ok_iff hq (show q.root? .source = some q.source from rfl)

/-- What is foreign under the name of another package lies in that package. -/
theorem foreign_iff {p q : Package} (hp : p ∈ scope.tree.packages) (hq : q ∈ scope.tree.packages)
    {importer target : Module} (here : importer.package = p.id) (differ : q.id ≠ p.id)
    {names : List String} : scope.Foreign importer q.name names target ↔
      q.name ∈ p.dependencies ∧ target ∈ scope.tree.modules ∧ target.package = q.id ∧
        target.root = .source ∧ target.path = names := by
  constructor
  · rintro ⟨hm, ⟨p', hp', q', hq', here', lies, named, -, declared⟩, root, path⟩
    obtain rfl := sound.tree.package_inj hp' hp (here'.trans here)
    obtain rfl : q' = q := List.inj_on_of_nodup_map sound.tree.names hq' hq named
    exact ⟨declared, hm, lies.symm, root, path⟩
  · rintro ⟨declared, hm, lies, root, path⟩
    exact ⟨hm, ⟨p, hp, q, hq, here.symm, lies.symm, rfl, differ.symm, declared⟩, root, path⟩

/-- A full path names a module of the own package, or else one of a dependency. -/
theorem locateFull_eq_ok_iff {importer : Module} (mem : importer ∈ scope.tree.modules)
    {path : ModulePath} {first : String} {rest : List String} {target : Module} :
    scope.locateFull path first rest importer = .ok target ↔
      scope.Own importer (first :: rest) target ∨
        (∀ n, ¬ scope.Own importer (first :: rest) n) ∧
          scope.Foreign importer first rest target := by
  have own : ∀ n, walkFirst (first :: rest) (scope.ownRoots importer) = .ok n ↔
      scope.Own importer (first :: rest) n := fun n => sound.walkFirst_ownRoots_eq_ok_iff mem
  simp only [← own]
  rw [locateFull]
  cases walkFirst (first :: rest) (scope.ownRoots importer) with
  | ok m => simp
  | error miss =>
    obtain ⟨p, hp, package, -⟩ := sound.tree.exists_package mem
    cases other : scope.otherPackage? first importer with
    | none =>
      have unnamed : ¬ scope.Foreign importer first rest target := by
        rintro ⟨-, ⟨p', -, q, hq, here, -, named, differ, -⟩, -, -⟩
        rw [sound.otherPackage?_eq_some_iff.mpr ⟨⟨q, hq, named, rfl⟩, here ▸ differ.symm⟩] at other
        exact absurd other (by simp)
      simp [unnamed]
    | some id =>
      obtain ⟨⟨q, hq, rfl, rfl⟩, differ⟩ := sound.otherPackage?_eq_some_iff.mp other
      have depends := Registry.dependsOn_ofTree_iff sound.tree hp hq
      dsimp only
      rw [sound.registry, sound.foreign_iff hp hq package (package ▸ differ),
        ← sound.walkFirst_source_eq_ok_iff hq, ← depends, package]
      by_cases declared : (Registry.ofTree scope.tree).dependsOn p.id q.id = true
      · rw [if_pos declared]
        cases walkFirst rest ((scope.tree.package? q.id).map (·.source)).toList <;>
          simp [declared]
      · rw [if_neg declared]
        simp [declared]

/-- A path of several segments is a full path. -/
theorem locate_several_eq_ok_iff {importer : Module} (mem : importer ∈ scope.tree.modules)
    {first : String} {rest : List String} (several : rest ≠ []) {span : Option Span}
    {target : Module} : scope.locate ⟨first :: rest, span⟩ importer = .ok target ↔
      scope.Own importer (first :: rest) target ∨
        (∀ n, ¬ scope.Own importer (first :: rest) n) ∧
          scope.Foreign importer first rest target := by
  obtain ⟨second, rest, rfl⟩ := List.exists_cons_of_ne_nil several
  exact sound.locateFull_eq_ok_iff mem

/-- What a path names, by its length. -/
theorem locate_eq_ok_iff {importer : Module} (mem : importer ∈ scope.tree.modules)
    {path : ModulePath} {target : Module} : scope.locate path importer = .ok target ↔
      match path.segments with
      | [] => False
      | [name] =>
        ∀ m, m ∈ scope.tree.modules ∧ m.name = name ∧ scope.Reaches importer m ↔ m = target
      | first :: rest => scope.Own importer (first :: rest) target ∨
          (∀ n, ¬ scope.Own importer (first :: rest) n) ∧
            scope.Foreign importer first rest target := by
  rw [locate]
  match path.segments with
  | [] => simp
  | [name] => exact sound.locateShort_eq_ok_iff mem
  | _ :: _ :: _ => exact sound.locateFull_eq_ok_iff mem

theorem reaches_fields {importer m : Module} (reaches : scope.Reaches importer m) :
    m.package = importer.package ∧ (m.root = importer.root ∨ m.root = .source) := by
  rcases reaches with ⟨package, root, -⟩ | ⟨p, paired, package, root, -⟩
  · exact ⟨package.symm, .inl root.symm⟩
  · have fits := sound.pairs _ paired
    exact ⟨package.symm.trans fits.package, .inr (root.symm.trans fits.isProduction)⟩

/-- Where the module that a path names can be. -/
theorem locate_fields {importer target : Module} {path : ModulePath}
    (mem : importer ∈ scope.tree.modules) (found : scope.locate path importer = .ok target) :
    target ∈ scope.tree.modules ∧
      (target.package = importer.package ∧ (target.root = importer.root ∨ target.root = .source) ∨
        target.package ≠ importer.package ∧ target.root = .source ∧
          ∃ p ∈ scope.tree.packages, ∃ q ∈ scope.tree.packages, p.id = importer.package ∧
            q.id = target.package ∧ q.name ∈ p.dependencies) := by
  have closed := (sound.locate_eq_ok_iff mem).mp found
  match path.segments, closed with
  | [name], only =>
    obtain ⟨hm, -, reaches⟩ := (only target).mpr rfl
    exact ⟨hm, .inl (sound.reaches_fields reaches)⟩
  | _ :: _ :: _, .inl own =>
    exact ⟨own.mem, .inl ⟨own.package, own.root.imp_right And.left⟩⟩
  | _ :: _ :: _, .inr ⟨_, foreign⟩ =>
    obtain ⟨p, hp, q, hq, here, there, -, -, declared⟩ := foreign.package
    exact ⟨foreign.mem, .inr ⟨foreign.package_ne, foreign.root, p, hp, q, hq, here, there,
      declared⟩⟩

theorem locate_mem {importer target : Module} {path : ModulePath}
    (mem : importer ∈ scope.tree.modules) (found : scope.locate path importer = .ok target) :
    target ∈ scope.tree.modules :=
  (sound.locate_fields mem found).1

end Sound

end Scope

namespace ModuleTree.Sound

variable {scope : Scope} (sound : scope.tree.Sound)

include sound

theorem locateShort_mem {name : String} {importer target : Module}
    (found : scope.locateShort name importer = .ok target) : target ∈ scope.tree.modules := by
  rw [Scope.locateShort] at found
  split at found
  · rename_i m only
    have mem : m ∈ scope.inScope name importer := only ▸ List.mem_singleton.mpr rfl
    rw [Scope.inScope, List.mem_eraseDups, List.mem_flatMap] at mem
    obtain ⟨anchor, ha, named⟩ := mem
    obtain ⟨id, -, there⟩ := List.mem_filterMap.mp ha
    obtain ⟨inTree, -⟩ := sound.directory?_eq_some_iff.mp there
    obtain ⟨d, hd, hm, -⟩ := (Directory.mem_modulesNamed (sound.orderly inTree)).mp named
    have below := (sound.mem_subtree_iff inTree).mp hd
    exact Except.ok.inj found ▸ sound.mem_modules.mpr ⟨d, below.1, hm⟩
  · exact absurd found (by simp)
  · exact absurd found (by simp)

theorem walkFirst_mem {names : List String} {roots : List Directory} {target : Module}
    (rooted : ∀ r ∈ roots, ∃ p ∈ scope.tree.packages, r ∈ p.roots)
    (found : Scope.walkFirst names roots = .ok target) : target ∈ scope.tree.modules := by
  rw [← Scope.toOption_eq_some_iff, Scope.toOption_walkFirst] at found
  obtain ⟨r, hr, walked⟩ := List.exists_of_findSome?_eq_some found
  obtain ⟨p, hp, mem⟩ := rooted r hr
  obtain ⟨root, isRoot⟩ := Package.mem_roots.mp mem
  exact ((sound.walk_root_eq_ok_iff hp isRoot).mp (Scope.toOption_eq_some_iff.mp walked)).1

theorem rooted_ownRoots {importer : Module} :
    ∀ r ∈ scope.ownRoots importer, ∃ p ∈ scope.tree.packages, r ∈ p.roots := by
  intro r hr
  rw [Scope.ownRoots] at hr
  split at hr
  · exact absurd hr List.not_mem_nil
  · rename_i p there
    refine ⟨p, (sound.package?_eq_some_iff.mp there).1, ?_⟩
    split at hr
    · exact List.mem_singleton.mp hr ▸ List.mem_cons_self
    · exact (List.perm_append_singleton ..).mem_iff.mp hr

theorem locateFull_mem {path : ModulePath} {first : String} {rest : List String}
    {importer target : Module} (found : scope.locateFull path first rest importer = .ok target) :
    target ∈ scope.tree.modules := by
  rw [Scope.locateFull] at found
  split at found
  · rename_i m walked
    exact Except.ok.inj found ▸ sound.walkFirst_mem sound.rooted_ownRoots walked
  · split at found
    · exact absurd found (by simp)
    · split at found
      · split at found
        · rename_i m walked
          refine Except.ok.inj found ▸ sound.walkFirst_mem (fun r hr => ?_) walked
          obtain ⟨p, there, rfl⟩ := Option.map_eq_some_iff.mp (Option.mem_toList.mp hr)
          exact ⟨p, (sound.package?_eq_some_iff.mp there).1, List.mem_cons_self⟩
        · exact absurd found (by simp)
      · exact absurd found (by simp)

/-- Whatever registry and pairs go with a tree, the module that a path names is in the tree. -/
theorem locate_mem {importer target : Module} {path : ModulePath}
    (found : scope.locate path importer = .ok target) : target ∈ scope.tree.modules := by
  rw [Scope.locate] at found
  split at found
  · exact absurd found (by simp)
  · exact sound.locateShort_mem found
  · exact sound.locateFull_mem found

end ModuleTree.Sound

end LetModules
