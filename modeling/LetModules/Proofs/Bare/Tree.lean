import LetModules.Proofs.Tree.Profile

/-!
Bare trees. A tree is *bare* of its declarations, and so are sources. Laying out packages does not
read what files declare: a bare source is refused if the source is, and placed where the source is
placed (`Growth.tree_ofSources_bare`). Only the ids of declarations depend on how many there are.
-/

namespace LetModules

/-- The module without declarations. -/
def Module.bare (m : Module) : Module := { m with declarations := [] }

/-- The file without declarations. -/
def ModuleSource.bare (file : ModuleSource) : ModuleSource := { file with declarations := [] }

/-- The ids that come next, where no declarations came before. -/
def NextIds.bare (next : NextIds) : NextIds := { next with declaration := 0 }

namespace Directory

mutual

/-- The directory, with bare modules in it and below it. -/
def bare : Directory → Directory
  | ⟨id, name, parent, package, root, path, modules, children⟩ =>
    ⟨id, name, parent, package, root, path, modules.map Module.bare, bares children⟩

/-- Several directories with bare modules. -/
def bares : List Directory → List Directory
  | [] => []
  | directory :: rest => bare directory :: bares rest

end

theorem bares_eq_map (directories : List Directory) :
    bares directories = directories.map bare := by
  induction directories with
  | nil => rfl
  | cons directory rest ih => rw [bares, ih, List.map_cons]

@[simp] theorem bare_name (d : Directory) : d.bare.name = d.name := by cases d; rfl

@[simp] theorem bare_path (d : Directory) : d.bare.path = d.path := by cases d; rfl

@[simp] theorem bare_modules (d : Directory) : d.bare.modules = d.modules.map Module.bare := by
  cases d; rfl

@[simp] theorem bare_children (d : Directory) : d.bare.children = d.children.map bare := by
  cases d
  exact bares_eq_map _

/-- What lies below a bare directory is bare, and the rest is as it was. -/
theorem subtree_bare (d : Directory) : d.bare.subtree = d.subtree.map bare := by
  induction d using Directory.induction with
  | step d ih =>
    rw [subtree_eq, subtree_eq, bare_children, List.flatMap_map, List.map_cons, List.map_flatMap]
    exact congrArg (d.bare :: ·) (List.flatMap_congr ih)

end Directory

namespace DirectorySource

mutual

/-- The directory, with bare files in it and below it. -/
def bare : DirectorySource → DirectorySource
  | ⟨name, files, directories⟩ => ⟨name, files.map ModuleSource.bare, bares directories⟩

/-- Several directories with bare files. -/
def bares : List DirectorySource → List DirectorySource
  | [] => []
  | directory :: rest => bare directory :: bares rest

end

theorem bares_eq_map (directories : List DirectorySource) :
    bares directories = directories.map bare := by
  induction directories with
  | nil => rfl
  | cons directory rest ih => rw [bares, ih, List.map_cons]

@[simp] theorem bare_name (source : DirectorySource) : source.bare.name = source.name := by
  cases source; rfl

@[simp] theorem isFolded_bare (source : DirectorySource) :
    source.bare.isFolded = source.isFolded := by
  cases source
  exact List.any_map

end DirectorySource

namespace PackageSource

/-- The package with bare files. -/
def bare (source : PackageSource) : PackageSource :=
  { source with
    source := source.source.bare
    test := source.test.map DirectorySource.bare }

end PackageSource

namespace Package

/-- The package with bare modules. -/
def bare (p : Package) : Package :=
  { p with
    source := p.source.bare
    test := p.test.map Directory.bare }

theorem roots_bare (p : Package) : p.bare.roots = p.roots.map Directory.bare := by
  rw [roots, roots, bare]
  cases p.test <;> rfl

end Package

namespace ModuleTree

/-- The tree without declarations. -/
def bare (tree : ModuleTree) : ModuleTree where
  packages := tree.packages.map Package.bare
  directories := tree.directories.map Directory.bare
  modules := tree.modules.map Module.bare
  declarations := []

theorem packageNamed?_bare (tree : ModuleTree) (name : String) :
    tree.bare.packageNamed? name = (tree.packageNamed? name).map Package.bare :=
  List.find?_map

theorem package?_bare (tree : ModuleTree) (id : PackageId) :
    tree.bare.package? id = (tree.package? id).map Package.bare :=
  List.getElem?_map

theorem directory?_bare (tree : ModuleTree) (id : DirectoryId) :
    tree.bare.directory? id = (tree.directory? id).map Directory.bare :=
  List.getElem?_map

end ModuleTree

/-- Which entries repeat a key does not change with the entries, if the keys do not. -/
theorem repeatsBy_map {key : α → String} {key' : β → String} {f : α → β}
    (same : ∀ a, key' (f a) = key a) : ∀ (seen : List String) (entries : List α),
      repeatsBy key' seen (entries.map f) = (repeatsBy key seen entries).map f
  | _, [] => rfl
  | seen, a :: rest => by
    rw [List.map_cons, repeatsBy, repeatsBy, same, repeatsBy_map same seen rest,
      repeatsBy_map same (key a :: seen) rest]
    split <;> rfl

namespace DirectorySource

theorem foldConflicts_bare (path : List String) (folding : List ModuleSource) :
    foldConflicts path (folding.map ModuleSource.bare) = foldConflicts path folding := by
  match folding with
  | [] => rfl
  | [_] => rfl
  | _ :: _ :: _ => simp [foldConflicts, ModuleSource.bare]

theorem fileConflicts_bare (path : List String) (plain : List ModuleSource) :
    fileConflicts path (plain.map ModuleSource.bare) = fileConflicts path plain := by
  rw [fileConflicts, fileConflicts, repeatsBy_map (fun _ => rfl), List.map_map]
  rfl

mutual

/-- A bare directory has the conflicts of the directory. -/
theorem conflicts_bare (isRoot : Bool) (path : List String) : ∀ source : DirectorySource,
    conflicts isRoot path source.bare = conflicts isRoot path source
  | ⟨name, files, directories⟩ => by
    have kept : ∀ p : ModuleSource → Bool, (∀ file, p (ModuleSource.bare file) = p file) →
        (files.map ModuleSource.bare).filter p = (files.filter p).map ModuleSource.bare :=
      fun p same => List.filter_map.trans (congrArg _ (List.filter_congr fun file _ => same file))
    rw [bare, conflicts, conflicts, kept _ fun _ => rfl, kept _ fun _ => rfl, foldConflicts_bare,
      fileConflicts_bare, List.map_map, childConflicts_bares]
    rfl

theorem childConflicts_bares (path plain : List String) :
    ∀ (seen : List String) (directories : List DirectorySource),
      childConflicts path plain seen (bares directories) =
        childConflicts path plain seen directories
  | _, [] => rfl
  | seen, child :: rest => by
    rw [bares, childConflicts, childConflicts, bare_name, isFolded_bare,
      conflicts_bare false (path ++ [child.name]) child,
      childConflicts_bares path plain (child.name :: seen) rest]

end

variable (grounds : Grounds)

/-- Bare files are placed where the files are. -/
theorem bare_placeFiles (isRoot : Bool) (name : String) (directory : DirectoryId)
    (path : List String) : ∀ (files : List ModuleSource) (next : NextIds),
      Prod.map (List.map Module.bare) NextIds.bare
        (placeFiles grounds isRoot name directory path next files) =
          placeFiles grounds isRoot name directory path next.bare (files.map ModuleSource.bare)
  | [], _ => rfl
  | file :: rest, next => by
    rw [List.map_cons, placeFiles, placeFiles]
    have ih := bare_placeFiles isRoot name directory path rest (next.afterModule (file.place grounds
      directory (ownedPath isRoot name path file) (foldsInto isRoot name file) next))
    exact congrArg (Prod.map (_ :: ·) id) ih

mutual

/-- A bare directory is placed where the directory is. -/
theorem bare_place (parent : Option DirectoryId) (path : List String) (next : NextIds) :
    ∀ source : DirectorySource, Prod.map Directory.bare NextIds.bare
      (place grounds parent path next source) = place grounds parent path next.bare source.bare
  | ⟨name, files, directories⟩ => by
    let here : NextIds := { next with directory := next.directory + 1 }
    have modules : Prod.map (List.map Module.bare) NextIds.bare
        (placeFiles grounds parent.isNone name ⟨next.directory⟩ path here files) =
          placeFiles grounds parent.isNone name ⟨next.bare.directory⟩ path
            { next.bare with directory := next.bare.directory + 1 } (files.map ModuleSource.bare) :=
      bare_placeFiles grounds _ _ _ _ files here
    have children := bare_placeChildren ⟨next.bare.directory⟩ path
      (placeFiles grounds parent.isNone name ⟨next.directory⟩ path here files).2 directories
    rw [bare, place, place, ← modules, Prod.map_snd, ← children, Prod.map_apply, Directory.bare,
      Directory.bares_eq_map]
    rfl

theorem bare_placeChildren (parent : DirectoryId) (path : List String) (next : NextIds) :
    ∀ sources : List DirectorySource, Prod.map (List.map Directory.bare) NextIds.bare
      (placeChildren grounds parent path next sources) =
        placeChildren grounds parent path next.bare (bares sources)
  | [] => rfl
  | child :: rest => by
    rw [bares, placeChildren, placeChildren]
    have first := bare_place (some parent) (path ++ [child.name]) next child
    have others := bare_placeChildren parent path
      (place grounds (some parent) (path ++ [child.name]) next child).2 rest
    rw [bare_name, ← first, Prod.map_snd, ← others]
    rfl

end

end DirectorySource

namespace PackageSource

theorem conflicts_bare (source : PackageSource) : source.bare.conflicts = source.conflicts := by
  rw [conflicts, conflicts, roots, roots, bare, List.flatMap_cons, List.flatMap_cons,
    DirectorySource.conflicts_bare]
  cases source.test with
  | none => rfl
  | some test => simp [DirectorySource.conflicts_bare]

/-- A bare package is placed where the package is. -/
theorem bare_place (id : PackageId) (next : NextIds) (source : PackageSource) :
    (source.place id next).bare = source.bare.place id next.bare := by
  have first := DirectorySource.bare_place ⟨id, .source⟩ none [] next source.source
  rw [place, place, bare, Package.bare, ← first, Option.map_map, Option.map_map, Prod.map_snd]
  refine congrArg (Package.mk _ _ _ _) (Option.map_congr fun test _ => ?_)
  exact congrArg Prod.fst (DirectorySource.bare_place ⟨id, .test⟩ none []
    (source.source.place ⟨id, .source⟩ none [] next).2 test)

end PackageSource

namespace ModuleTree

theorem nextIds_bare (tree : ModuleTree) : tree.bare.nextIds = tree.nextIds.bare := by
  rw [nextIds, bare, List.length_map, List.length_map]
  rfl

theorem refusals_bare (tree : ModuleTree) (source : PackageSource) :
    tree.bare.refusals source.bare = tree.refusals source := by
  have named : (tree.bare.packageNamed? source.name).isSome =
      (tree.packageNamed? source.name).isSome := by
    rw [packageNamed?_bare, Option.isSome_map]
  rw [refusals, refusals, source.conflicts_bare, ← named]
  rfl

theorem append_bare (tree : ModuleTree) (source : PackageSource) :
    tree.bare.append source.bare = (tree.append source).bare := by
  have placed : source.bare.place ⟨tree.bare.packages.length⟩ tree.bare.nextIds =
      (source.place ⟨tree.packages.length⟩ tree.nextIds).bare := by
    rw [PackageSource.bare_place, nextIds_bare, bare, List.length_map]
  have directories : ∀ roots : List Directory,
      (roots.map Directory.bare).flatMap Directory.subtree =
        (roots.flatMap Directory.subtree).map Directory.bare := fun roots => by
    rw [List.flatMap_map, List.map_flatMap]
    exact List.flatMap_congr fun root _ => root.subtree_bare
  have modules : ∀ directories : List Directory,
      (directories.map Directory.bare).flatMap (·.modules) =
        (directories.flatMap (·.modules)).map Module.bare := fun directories => by
    rw [List.flatMap_map, List.map_flatMap]
    exact List.flatMap_congr fun d _ => d.bare_modules
  have declarations : ∀ modules : List Module,
      (modules.map Module.bare).flatMap (·.declarations) = [] := fun modules => by
    rw [List.flatMap_map]
    exact List.flatMap_eq_nil_iff.mpr fun _ _ => rfl
  rw [append, append, placed, Package.roots_bare, directories, modules, declarations]
  simp only [bare, List.map_append, List.map_cons, List.map_nil, List.append_nil]

end ModuleTree

/-- The tree of bare packages is the tree of the packages, without declarations. -/
theorem Growth.tree_ofSources_bare (sources : List PackageSource) :
    (ofSources (sources.map PackageSource.bare)).tree = (ofSources sources).tree.bare := by
  have run : ∀ (sources : List PackageSource) (growth growth' : Growth),
      growth'.tree = growth.tree.bare →
        ((sources.map PackageSource.bare).foldl add growth').tree =
          (sources.foldl add growth).tree.bare := by
    intro sources
    induction sources with
    | nil => exact fun _ _ same => same
    | cons source rest ih =>
      intro growth growth' same
      refine ih _ _ ?_
      rw [add, add, same, ModuleTree.refusals_bare]
      cases growth.tree.refusals source with
      | nil => exact growth.tree.append_bare source
      | cons _ _ => rfl
  exact run sources empty empty rfl

end LetModules
