import LetModules.Proofs.Twin.Outcome
import LetModules.Proofs.Twin.Tree

/-!
Listing order does not matter. Packages with other names each, and in them files and sub-directories
in any order, make trees that look alike; so whatever is resolved comes to the same for modules of
one name, although every id may differ. A failed lookup is told by its code: which modules it lists,
and how many, is told in listing order.
-/

namespace LetModules

/-- The same directory, with files and sub-directories in and below it in other orders. -/
inductive DirectorySource.Rearranged : DirectorySource → DirectorySource → Prop
  | files {name files files' directories} (perm : files.Perm files') :
    Rearranged ⟨name, files, directories⟩ ⟨name, files', directories⟩
  | directories {name files directories directories'} (perm : directories.Perm directories') :
    Rearranged ⟨name, files, directories⟩ ⟨name, files, directories'⟩
  | deeper {name files before after child child'} (inside : Rearranged child child') :
    Rearranged ⟨name, files, before ++ child :: after⟩ ⟨name, files, before ++ child' :: after⟩
  | refl (source) : Rearranged source source
  | trans {first second third} : Rearranged first second → Rearranged second third →
    Rearranged first third

/-- The same package with rearranged roots. -/
structure PackageSource.Rearranged (p q : PackageSource) : Prop where
  name : p.name = q.name
  dependencies : p.dependencies = q.dependencies
  source : p.source.Rearranged q.source
  test : Option.Rel DirectorySource.Rearranged p.test q.test

/-- The same packages, rearranged and in another order. -/
def Rearranged (sources sources' : List PackageSource) : Prop :=
  ∃ permuted, sources.Perm permuted ∧ List.Forall₂ PackageSource.Rearranged permuted sources'

namespace DirectorySource

/-- Whether names clash in a directory does not depend on the order of what it lists. -/
theorem Clear.congr {isRoot : Bool} {name : String} {files files' : List ModuleSource}
    {directories directories' : List DirectorySource} (perm : files.Perm files')
    (children : (directories.map fun child => (child.name, child.isFolded)).Perm
      (directories'.map fun child => (child.name, child.isFolded)))
    (clear : Clear isRoot ⟨name, files, directories⟩) :
    Clear isRoot ⟨name, files', directories'⟩ := by
  have plain : (plainFiles isRoot ⟨name, files, directories⟩).Perm
      (plainFiles isRoot ⟨name, files', directories'⟩) := perm.filter _
  have names : (directories.map (·.name)).Perm (directories'.map (·.name)) := by
    have firsts := children.map Prod.fst
    rwa [List.map_map, List.map_map] at firsts
  refine ⟨?_, (plain.map _).nodup_iff.mp clear.files, names.nodup_iff.mp clear.directories, ?_⟩
  · have folding := (perm.filter (foldsInto isRoot name)).length_eq
    exact folding ▸ clear.fold
  · intro child hc folded beside
    obtain ⟨other, ho, same⟩ := List.mem_map.mp (children.mem_iff.mpr (List.mem_map_of_mem hc))
    obtain ⟨named, folded'⟩ := Prod.mk.inj same
    have beside' := (plain.map (·.name)).mem_iff.mpr beside
    rw [← named] at beside'
    exact clear.apart other ho (folded'.trans folded) beside'

namespace Rearranged

variable {s t : DirectorySource}

theorem name (h : Rearranged s t) : s.name = t.name := by
  induction h with
  | trans _ _ first second => exact first.trans second
  | _ => rfl

theorem isFolded (h : Rearranged s t) : s.isFolded = t.isFolded := by
  induction h with
  | files perm => exact perm.any_eq
  | trans _ _ first second => exact first.trans second
  | _ => rfl

theorem conflicts_eq_nil_iff (h : Rearranged s t) : ∀ isRoot path,
    conflicts isRoot path s = [] ↔ conflicts isRoot path t = [] := by
  induction h with
  | files perm =>
    intro isRoot path
    rw [DirectorySource.conflicts_eq_nil_iff, DirectorySource.conflicts_eq_nil_iff]
    exact and_congr_left fun _ => ⟨.congr perm (.refl _), .congr perm.symm (.refl _)⟩
  | directories perm =>
    intro isRoot path
    rw [DirectorySource.conflicts_eq_nil_iff, DirectorySource.conflicts_eq_nil_iff]
    refine and_congr ⟨.congr (.refl _) (perm.map _), .congr (.refl _) (perm.symm.map _)⟩ ?_
    exact forall_congr' fun child => by rw [perm.mem_iff]
  | @deeper name files before after child child' inside ih =>
    intro isRoot path
    have same : (before ++ child :: after).map (fun c => (c.name, c.isFolded)) =
        (before ++ child' :: after).map fun c => (c.name, c.isFolded) := by
      rw [List.map_append, List.map_append, List.map_cons, List.map_cons, inside.name,
        inside.isFolded]
    rw [DirectorySource.conflicts_eq_nil_iff, DirectorySource.conflicts_eq_nil_iff]
    refine and_congr ⟨.congr (.refl _) (.of_eq same), .congr (.refl _) (.of_eq same.symm)⟩ ?_
    simp only [List.forall_mem_append, List.forall_mem_cons, ih, inside.name]
  | refl => exact fun _ _ => Iff.rfl
  | trans _ _ first second =>
    exact fun isRoot path => (first isRoot path).trans (second isRoot path)

theorem profiles_perm (h : Rearranged s t) (package : String) (root : Root) : ∀ isRoot path,
    (s.profiles package root isRoot path).Perm (t.profiles package root isRoot path) := by
  induction h with
  | files perm =>
    intro isRoot path
    rw [profiles, profiles]
    exact (perm.map _).append_right _
  | directories perm =>
    intro isRoot path
    rw [profiles, profiles, childProfiles_eq_flatMap, childProfiles_eq_flatMap]
    exact (perm.flatMap_right _).append_left _
  | deeper inside ih =>
    intro isRoot path
    rw [profiles, profiles, childProfiles_eq_flatMap, childProfiles_eq_flatMap, List.flatMap_append,
      List.flatMap_append, List.flatMap_cons, List.flatMap_cons, inside.name]
    exact (((ih false _).append_right _).append_left _).append_left _
  | refl => exact fun _ _ => .refl _
  | trans _ _ first second =>
    exact fun isRoot path => (first isRoot path).trans (second isRoot path)

end Rearranged

end DirectorySource

/-- The same profile, with the modules in another order. -/
structure PackageProfile.Reordered (p q : PackageProfile) : Prop where
  name : p.name = q.name
  dependencies : p.dependencies = q.dependencies
  modules : p.modules.Perm q.modules

namespace PackageProfile.Reordered

variable {p q : PackageProfile}

theorem symm (h : p.Reordered q) : q.Reordered p :=
  ⟨h.name.symm, h.dependencies.symm, h.modules.symm⟩

theorem alike (h : p.Reordered q) : p.Alike q where
  name := h.name
  dependencies := h.dependencies
  left := fun x hx => ⟨x, h.modules.mem_iff.mp hx, .refl x⟩
  right := fun y hy => ⟨y, h.modules.mem_iff.mpr hy, .refl y⟩

end PackageProfile.Reordered

namespace PackageSource.Rearranged

variable {p q : PackageSource}

theorem conflicts_eq_nil_iff (h : p.Rearranged q) : p.conflicts = [] ↔ q.conflicts = [] := by
  have source := h.source.conflicts_eq_nil_iff true []
  rw [PackageSource.conflicts, PackageSource.conflicts, PackageSource.roots, PackageSource.roots,
    List.flatMap_cons, List.flatMap_cons, List.append_eq_nil_iff, List.append_eq_nil_iff, source]
  refine and_congr_right fun _ => ?_
  have test := h.test
  generalize p.test = mine at test ⊢
  generalize q.test = its at test ⊢
  cases test with
  | none => exact Iff.rfl
  | some inside =>
    simp only [Option.toList_some, List.flatMap_singleton]
    exact inside.conflicts_eq_nil_iff true []

theorem reordered (h : p.Rearranged q) : p.profile.Reordered q.profile := by
  refine ⟨h.name, h.dependencies, ?_⟩
  rw [PackageSource.profile, PackageSource.profile, h.name]
  refine (h.source.profiles_perm q.name .source true []).append ?_
  have test := h.test
  generalize p.test = mine at test ⊢
  generalize q.test = its at test ⊢
  cases test with
  | none => exact .refl _
  | some inside =>
    simp only [Option.toList_some, List.flatMap_singleton]
    exact inside.profiles_perm q.name .test true []

end PackageSource.Rearranged

/-- Packages of different names are refused for conflicts only. -/
theorem Growth.mem_accepted_iff : ∀ {sources : List PackageSource} {taken : List String},
    (taken ++ sources.map (·.name)).Nodup → ∀ {p : PackageSource},
      p ∈ accepted taken sources ↔ p ∈ sources ∧ p.conflicts = []
  | [], _, _, _ => by simp [accepted]
  | source :: rest, taken, distinct, p => by
    have free : source.name ∉ taken := fun mem =>
      (List.nodup_append.mp distinct).2.2 _ mem _ List.mem_cons_self rfl
    have next : (taken ++ [source.name] ++ rest.map (·.name)).Nodup := by
      rwa [List.append_assoc, List.singleton_append]
    have skip : (taken ++ rest.map (·.name)).Nodup :=
      distinct.sublist ((List.sublist_cons_self _ _).append_left _)
    rw [accepted]
    by_cases clear : source.conflicts = []
    · rw [if_pos ⟨free, clear⟩, List.mem_cons, mem_accepted_iff next, List.mem_cons]
      constructor
      · rintro (rfl | ⟨mem, clear'⟩)
        · exact ⟨.inl rfl, clear⟩
        · exact ⟨.inr mem, clear'⟩
      · rintro ⟨rfl | mem, clear'⟩
        · exact .inl rfl
        · exact .inr ⟨mem, clear'⟩
    · rw [if_neg fun h => clear h.2, mem_accepted_iff skip, List.mem_cons]
      refine and_congr_left fun clear' => (or_iff_right ?_).symm
      rintro rfl
      exact clear clear'

/-- Accepted packages have counterparts, if those of the lists do. -/
theorem Growth.exists_reordered {sources sources' : List PackageSource}
    (distinct : (sources.map (·.name)).Nodup) (distinct' : (sources'.map (·.name)).Nodup)
    (listed : ∀ s ∈ sources, s.conflicts = [] →
      ∃ t ∈ sources', t.conflicts = [] ∧ s.profile.Reordered t.profile) :
    ∀ p ∈ (ofSources sources).tree.packages, ∃ q ∈ (ofSources sources').tree.packages,
      p.profile.Reordered q.profile := by
  intro p hp
  have there := List.mem_map_of_mem hp (f := Package.profile)
  rw [map_profile_ofSources, List.mem_map] at there
  obtain ⟨s, hs, same⟩ := there
  obtain ⟨mem, clear⟩ := (mem_accepted_iff distinct).mp hs
  obtain ⟨t, ht, clear', reordered⟩ := listed s mem clear
  have there' : t.profile ∈ (ofSources sources').tree.packages.map (·.profile) := by
    rw [map_profile_ofSources]
    exact List.mem_map_of_mem ((mem_accepted_iff distinct').mpr ⟨ht, clear'⟩)
  obtain ⟨q, hq, same'⟩ := List.mem_map.mp there'
  exact ⟨q, hq, by rw [← same, same']; exact reordered⟩

/-- Sound trees with the same packages, in which modules are in other orders. -/
structure ModuleTree.Reordered (S T : ModuleTree) : Prop where
  soundLeft : S.Sound
  soundRight : T.Sound
  left : ∀ p ∈ S.packages, ∃ q ∈ T.packages, p.profile.Reordered q.profile
  right : ∀ q ∈ T.packages, ∃ p ∈ S.packages, p.profile.Reordered q.profile

namespace ModuleTree.Reordered

variable {S T : ModuleTree}

theorem alike (h : S.Reordered T) : S.Alike T where
  soundLeft := h.soundLeft
  soundRight := h.soundRight
  left := fun p hp => (h.left p hp).imp fun _ ⟨hq, same⟩ => ⟨hq, same.alike⟩
  right := fun q hq => (h.right q hq).imp fun _ ⟨hp, same⟩ => ⟨hp, same.alike⟩

/-- Twins declare the same, private or not. -/
theorem headers_eq (h : S.Reordered T) {m n : Module} (twins : Twins S T m n) :
    m.headers = n.headers := by
  obtain ⟨p, hp, hx⟩ := h.soundLeft.exists_profileOf_iff.mp ⟨m, twins.left, rfl⟩
  obtain ⟨q, hq, packages⟩ := h.left p hp
  obtain ⟨n', hn', same⟩ :=
    h.soundRight.exists_profileOf_iff.mpr ⟨q, hq, packages.modules.mem_iff.mp hx⟩
  have name : T.nameOf n' = T.nameOf n := (congrArg Profile.name same).trans twins.name
  obtain rfl := h.soundRight.nameOf_inj hn' twins.right name
  exact (congrArg Profile.headers same).symm

end ModuleTree.Reordered

namespace Rearranged

variable {sources sources' : List PackageSource}

theorem names_perm (h : Rearranged sources sources') :
    (sources.map (·.name)).Perm (sources'.map (·.name)) := by
  obtain ⟨permuted, perm, related⟩ := h
  exact (perm.map _).trans (.of_eq (map_eq_of_forall₂ (fun _ _ same => same.name) related))

/-- Rearranged packages of different names make trees with the same modules. -/
theorem tree_reordered (h : Rearranged sources sources')
    (distinct : (sources.map (·.name)).Nodup) :
    (Growth.ofSources sources).tree.Reordered (Growth.ofSources sources').tree := by
  have distinct' := h.names_perm.nodup_iff.mp distinct
  obtain ⟨permuted, perm, related⟩ := h
  refine ⟨Growth.sound_ofSources _, Growth.sound_ofSources _,
    Growth.exists_reordered distinct distinct' fun s hs clear => ?_, fun q hq => ?_⟩
  · obtain ⟨t, ht, same⟩ := exists_right_of_forall₂ related s (perm.mem_iff.mp hs)
    exact ⟨t, ht, same.conflicts_eq_nil_iff.mp clear, same.reordered⟩
  · obtain ⟨p, hp, reordered⟩ := Growth.exists_reordered distinct' distinct (fun t ht clear => by
      obtain ⟨s, hs, same⟩ := exists_right_of_forall₂ related.flip t ht
      exact ⟨s, perm.mem_iff.mpr hs, same.conflicts_eq_nil_iff.mpr clear,
        same.reordered.symm⟩) q hq
    exact ⟨p, hp, reordered.symm⟩

end Rearranged

/-- Two resolutions agree in all that can be said without ids: modules are identified by their names
and declarations by their owners and headers, and errors are told by their codes. -/
structure Resolution.SameAs (r r' : Resolution) : Prop where
  packages : (r.tree.packages.map (·.name)).Perm (r'.tree.packages.map (·.name))
  modules : (r.tree.modules.map r.tree.nameOf).Perm (r'.tree.modules.map r'.tree.nameOf)
  pairings : (r.pairings.map fun pair =>
      (r.tree.nameOf pair.test, r.tree.nameOf pair.production)).Perm
    (r'.pairings.map fun pair => (r'.tree.nameOf pair.test, r'.tree.nameOf pair.production))
  exports : ∀ m n, ModuleTree.Twins r.tree r'.tree m n →
    List.Forall₂ (Export.SameAs r.tree r'.tree) (r.exports.ofModule r.pairings m)
      (r'.exports.ofModule r'.pairings n)
  visible : ∀ m n, ModuleTree.Twins r.tree r'.tree m n →
    (r.visibleModules m).map r.tree.nameOf = (r'.visibleModules n).map r'.tree.nameOf
  sites : ∀ m n, ModuleTree.Twins r.tree r'.tree m n → ∀ i j,
    Option.Rel (Agree (Binding.SameAs r.tree r'.tree) fun p : Problem => p.cause.code)
      (r.binding? ⟨m.id, i, j⟩) (r'.binding? ⟨n.id, i, j⟩)

namespace ModuleTree.Alike

variable {S T : ModuleTree} (alike : S.Alike T)

include alike

theorem packages_perm : (S.packages.map (·.name)).Perm (T.packages.map (·.name)) := by
  refine (List.perm_ext_iff_of_nodup alike.soundLeft.names alike.soundRight.names).mpr fun _ => ?_
  simp only [List.mem_map]
  constructor
  · rintro ⟨p, hp, rfl⟩
    obtain ⟨q, hq, same⟩ := alike.left p hp
    exact ⟨q, hq, same.name.symm⟩
  · rintro ⟨q, hq, rfl⟩
    obtain ⟨p, hp, same⟩ := alike.right q hq
    exact ⟨p, hp, same.name⟩

theorem modules_perm : (S.modules.map S.nameOf).Perm (T.modules.map T.nameOf) := by
  refine (List.perm_ext_iff_of_nodup ?_ ?_).mpr fun name => ?_
  · exact List.Nodup.map_on (fun m hm n hn => alike.soundLeft.nameOf_inj hm hn)
      alike.soundLeft.nodup_modules
  · exact List.Nodup.map_on (fun m hm n hn => alike.soundRight.nameOf_inj hm hn)
      alike.soundRight.nodup_modules
  · simp only [List.mem_map]
    constructor
    · rintro ⟨m, hm, rfl⟩
      obtain ⟨n, twins, -⟩ := alike.exists_twin hm
      exact ⟨n, twins.right, twins.name.symm⟩
    · rintro ⟨n, hn, rfl⟩
      obtain ⟨m, twins, -⟩ := alike.symm.exists_twin hn
      exact ⟨m, twins.right, twins.name.symm⟩

end ModuleTree.Alike

/-- Each pair is told by the names of its modules. -/
theorem Scope.Sound.nodup_pairNames {scope : Scope} (sound : scope.Sound) :
    (scope.pairings.map fun pair =>
      (scope.tree.nameOf pair.test, scope.tree.nameOf pair.production)).Nodup := by
  refine List.Nodup.map_on (fun pair hp other ho same => ?_) (sound.tests.of_map _)
  have test := sound.tree.nameOf_inj (sound.pairs pair hp).test (sound.pairs other ho).test
    (congrArg Prod.fst same)
  exact List.inj_on_of_nodup_map sound.tests hp ho (congrArg _ test)

theorem Correspondence.pairNames_perm {S T : ModuleTree} {settings : Settings}
    (alike : S.Alike T) :
    ((Scope.ofTree settings S).pairings.map fun pair =>
        (S.nameOf pair.test, S.nameOf pair.production)).Perm
      ((Scope.ofTree settings T).pairings.map fun pair =>
        (T.nameOf pair.test, T.nameOf pair.production)) := by
  have left := Scope.sound_ofTree settings alike.soundLeft
  have right := Scope.sound_ofTree settings alike.soundRight
  refine (List.perm_ext_iff_of_nodup left.nodup_pairNames right.nodup_pairNames).mpr fun names => ?_
  simp only [List.mem_map]
  constructor
  · rintro ⟨pair, hp, rfl⟩
    obtain ⟨u, tests, -⟩ := alike.exists_twin (left.pairs pair hp).test
    obtain ⟨q, productions, -⟩ := alike.exists_twin (left.pairs pair hp).production
    exact ⟨⟨u, q⟩, (alike.mem_pairs_iff settings tests productions).mp hp,
      Prod.ext tests.name.symm productions.name.symm⟩
  · rintro ⟨pair, hp, rfl⟩
    obtain ⟨t, tests, -⟩ := alike.symm.exists_twin (right.pairs pair hp).test
    obtain ⟨p, productions, -⟩ := alike.symm.exists_twin (right.pairs pair hp).production
    exact ⟨⟨t, p⟩, (alike.mem_pairs_iff settings tests.symm productions.symm).mpr hp,
      Prod.ext tests.name.symm productions.name.symm⟩

/-- However packages of different names, and in them files and sub-directories, are listed, they
resolve to the same. -/
theorem sameAs_of_rearranged (settings : Settings) {sources sources' : List PackageSource}
    (distinct : (sources.map (·.name)).Nodup) (rearranged : Rearranged sources sources') :
    (Resolution.ofSources settings sources).SameAs (Resolution.ofSources settings sources') := by
  have reordered := rearranged.tree_reordered distinct
  have alike := reordered.alike
  have c := alike.correspondence_ofTree settings Cause.code fun m n _ path c c' failed failed' =>
    (Scope.code_of_locate_eq_error failed).trans (Scope.code_of_locate_eq_error failed').symm
  constructor
  case packages => exact alike.packages_perm
  case modules => exact alike.modules_perm
  case pairings => exact Correspondence.pairNames_perm alike
  case exports =>
    exact fun m n twins =>
      (c.forall₂_ofModule twins).imp fun _ _ copied => c.export_sameAs copied
  case visible => exact fun m n twins => c.map_nameOf_visibleModules twins
  case sites =>
    intro m n twins i j
    have sites := c.rel_binding? twins i j fun _ _ _ _ twins' _ _ => reordered.headers_eq twins'
    refine rel_imp (fun _ _ agree => ?_) sites
    exact agree.imp (fun _ _ copied => c.binding_sameAs copied) fun _ _ same =>
      congrArg Prod.fst same

/-- An application that imports from a library through a re-export; with `first` the application is
listed first, and the files of the library are listed as given. -/
def Rearranged.sample (first : Bool) (files : List ModuleSource) : List PackageSource :=
  let main : ModuleSource :=
    ⟨"Main", none, [], [⟨⟨["lib", "Api"], none⟩, [⟨"get", none, none⟩], none⟩]⟩
  let app : PackageSource := ⟨"app", ["lib"], ⟨"src", [main], []⟩, none⟩
  let lib : PackageSource := ⟨"lib", [], ⟨"src", files, []⟩, none⟩
  if first then [app, lib] else [lib, app]

/-- The application gets the same from the library, whichever of the two is listed first and in
whatever order the files of the library are. -/
theorem sameAs_of_rearranged_sample :
    let store : ModuleSource := ⟨"Store", none, [⟨"get", .public, .function, none, none⟩], []⟩
    let api : ModuleSource :=
      ⟨"Api", none, [⟨"get", .public, .reexport, some ⟨["Store"], none⟩, none⟩], []⟩
    let sources := Rearranged.sample true [store, api]
    let sources' := Rearranged.sample false [api, store]
    (sources.map (·.name)).Nodup ∧ Rearranged sources sources' ∧
      ((Resolution.ofSources .standard sources).binding? ⟨⟨0⟩, 0, 0⟩).any (·.isOk) = true ∧
      (Resolution.ofSources .standard sources).SameAs
        (Resolution.ofSources .standard sources') := by
  intro store api sources sources'
  have distinct : (sources.map (·.name)).Nodup := by decide
  have rearranged : Rearranged sources sources' :=
    ⟨Rearranged.sample false [store, api], .swap _ _ _,
      .cons ⟨rfl, rfl, .files (.swap _ _ _), .none⟩ (.cons ⟨rfl, rfl, .refl _, .none⟩ .nil)⟩
  exact ⟨distinct, rearranged, by decide +kernel,
    sameAs_of_rearranged .standard distinct rearranged⟩

end LetModules
