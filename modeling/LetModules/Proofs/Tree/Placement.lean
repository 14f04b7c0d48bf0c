import LetModules.Proofs.Tree.Subtree
import LetModules.Tree.Growth
import Mathlib.Data.List.Nodup

/-!
What placing a directory makes of it. The ids of a placed directory and of all below it are handed
out without gaps, from the given ones on (`Consecutive`), and every file ends up where its directory
says (`Sits`, `Shaped`).
-/

namespace LetModules

/-- The indices of the entries count up from `start`. -/
def Numbered (index : α → Nat) (start : Nat) (entries : List α) : Prop :=
  entries.map index = List.range' start entries.length

namespace Numbered

variable {index : α → Nat} {start : Nat}

theorem nil : Numbered index start [] := rfl

theorem cons {a : α} {entries : List α} (first : index a = start)
    (rest : Numbered index (start + 1) entries) : Numbered index start (a :: entries) := by
  rw [Numbered, List.map_cons, List.length_cons, List.range'_succ, first, rest]

theorem append {first second : List α} (h : Numbered index start first)
    (h' : Numbered index (start + first.length) second) :
    Numbered index start (first ++ second) := by
  rw [Numbered, List.map_append, h, h', List.length_append, List.range'_append_1]

/-- Entries numbered from zero stand at the places that their indices name. -/
theorem getElem?_eq_some_iff {entries : List α} (h : Numbered index 0 entries) {i : Nat} {a : α} :
    entries[i]? = some a ↔ a ∈ entries ∧ index a = i := by
  have at_place : ∀ j (hj : j < entries.length), index entries[j] = j := by
    intro j hj
    have same := congrArg (·[j]?) h
    simpa [hj] using same
  constructor
  · intro found
    obtain ⟨hi, rfl⟩ := List.getElem?_eq_some_iff.mp found
    exact ⟨List.getElem_mem hi, at_place i hi⟩
  · rintro ⟨mem, rfl⟩
    obtain ⟨j, hj, rfl⟩ := List.mem_iff_getElem.mp mem
    rw [at_place j hj, List.getElem?_eq_getElem hj]

theorem nodup {entries : List α} (h : Numbered index start entries) :
    (entries.map index).Nodup := by
  rw [h]
  exact List.nodup_range'

/-- Of numbered entries no two have one index. -/
theorem inj {entries : List α} (h : Numbered index start entries) {a b : α}
    (ha : a ∈ entries) (hb : b ∈ entries) (same : index a = index b) : a = b :=
  List.inj_on_of_nodup_map h.nodup ha hb same

end Numbered

/-- The modules of directories, in order. -/
def Directory.modulesOf (directories : List Directory) : List Module :=
  directories.flatMap (·.modules)

/-- The declarations of the modules of directories, in order. -/
def Directory.declarationsOf (directories : List Directory) : List Declaration :=
  (Directory.modulesOf directories).flatMap (·.declarations)

open Directory (modulesOf declarationsOf)

theorem modulesOf_append (first second : List Directory) :
    modulesOf (first ++ second) = modulesOf first ++ modulesOf second :=
  List.flatMap_append

theorem declarationsOf_append (first second : List Directory) :
    declarationsOf (first ++ second) = declarationsOf first ++ declarationsOf second := by
  rw [declarationsOf, modulesOf_append, List.flatMap_append, ← declarationsOf, ← declarationsOf]

theorem mem_modulesOf {directories : List Directory} {module : Module} :
    module ∈ modulesOf directories ↔
      ∃ directory ∈ directories, module ∈ directory.modules :=
  List.mem_flatMap

/-- The ids that come after those of the given directories and of what lies in them. -/
def NextIds.after (next : NextIds) (directories : List Directory) : NextIds :=
  ⟨next.directory + directories.length, next.module + (modulesOf directories).length,
    next.declaration + (declarationsOf directories).length⟩

theorem NextIds.after_append (next : NextIds) (first second : List Directory) :
    next.after (first ++ second) = (next.after first).after second := by
  simp [NextIds.after, modulesOf_append, declarationsOf_append, Nat.add_assoc]

/-- The ids of the directories, and of the modules and declarations in them, follow each other from
`next` on. -/
structure Consecutive (next : NextIds) (listed : List Directory) : Prop where
  directories : Numbered (·.id.index) next.directory listed
  modules : Numbered (·.id.index) next.module (modulesOf listed)
  declarations : Numbered (·.id.index) next.declaration (declarationsOf listed)

namespace Consecutive

theorem nil (next : NextIds) : Consecutive next [] := ⟨.nil, .nil, .nil⟩

theorem append {next : NextIds} {first second : List Directory} (h : Consecutive next first)
    (h' : Consecutive (next.after first) second) : Consecutive next (first ++ second) where
  directories := h.directories.append h'.directories
  modules := by
    rw [modulesOf_append]
    exact h.modules.append h'.modules
  declarations := by
    rw [declarationsOf_append]
    exact h.declarations.append h'.declarations

end Consecutive

/-- A module is where its directory says that it is. -/
structure Module.Sits (m : Module) (d : Directory) : Prop where
  directory : m.directory = d.id
  package : m.package = d.package
  root : m.root = d.root
  path : m.path = if m.folds then d.path else d.path ++ [m.name]
  named : m.folds = true → m.name = d.name
  owner : ∀ declaration ∈ m.declarations, declaration.owner = m.id
  distinct : (m.declarations.map (·.name)).Nodup

/-- The modules and the children of a directory are where it says that they are, and below another
directory the modules that fold it are those of its name. -/
structure Directory.Shaped (d : Directory) : Prop where
  sits : ∀ m ∈ d.modules, m.Sits d
  folds : ∀ m ∈ d.modules, m.folds = (!d.parent.isNone && m.name = d.name)
  parent : ∀ child ∈ d.children, child.parent = some d.id
  package : ∀ child ∈ d.children, child.package = d.package
  root : ∀ child ∈ d.children, child.root = d.root
  path : ∀ child ∈ d.children, child.path = d.path ++ [child.name]

/-- A root is not folded. -/
theorem Directory.Shaped.unfolded {d : Directory} (shaped : d.Shaped) (orphan : d.parent = none) :
    ∀ m ∈ d.modules, m.folds = false := by
  intro m hm
  rw [shaped.folds m hm, orphan, Option.isNone_none, Bool.not_true, Bool.false_and]

theorem nodup_firstsBy (key : α → String) : ∀ (seen : List String) (entries : List α),
    ((firstsBy key seen entries).map key).Nodup ∧
      ∀ a ∈ firstsBy key seen entries, key a ∉ seen
  | _, [] => ⟨List.nodup_nil, fun _ absent => absurd absent List.not_mem_nil⟩
  | seen, a :: rest => by
    rw [firstsBy]
    split
    · exact nodup_firstsBy key seen rest
    · rename_i new
      obtain ⟨distinct, unseen⟩ := nodup_firstsBy key (key a :: seen) rest
      refine ⟨?_, ?_⟩
      · rw [List.map_cons, List.nodup_cons]
        refine ⟨fun again => ?_, distinct⟩
        obtain ⟨b, hb, same⟩ := List.mem_map.mp again
        exact unseen b hb (same ▸ List.mem_cons_self)
      · intro b hb
        rcases List.mem_cons.mp hb with rfl | hb
        · exact new
        · exact fun seen' => unseen b hb (List.mem_cons_of_mem _ seen')

/-- Where keys are distinct, the first entry of each key is every entry. -/
theorem firstsBy_eq_self {key : α → String} : ∀ {seen : List String} {entries : List α},
    (entries.map key).Nodup → (∀ a ∈ entries, key a ∉ seen) → firstsBy key seen entries = entries
  | _, [], _, _ => rfl
  | seen, a :: rest, distinct, fresh => by
    rw [List.map_cons, List.nodup_cons] at distinct
    rw [firstsBy, if_neg (fresh a List.mem_cons_self), firstsBy_eq_self distinct.2]
    intro b hb again
    rcases List.mem_cons.mp again with same | old
    · exact distinct.1 (List.mem_map.mpr ⟨b, hb, same⟩)
    · exact fresh b (List.mem_cons_of_mem _ hb) old

namespace ModuleSource

variable (grounds : Grounds) (directory : DirectoryId) (path : List String) (folds : Bool)
  (next : NextIds) (file : ModuleSource)

/-- Placing a file keeps the headers of the declarations that count. -/
theorem headers_place :
    (file.place grounds directory path folds next).declarations.map (·.toDeclarationHeader) =
      file.kept := by
  rw [place, List.map_map]
  exact List.zipIdx_map_fst 0 file.kept

theorem names_place :
    (file.place grounds directory path folds next).declarations.map (·.name) =
      file.kept.map (·.name) := by
  rw [← headers_place grounds directory path folds next, List.map_map]
  rfl

theorem numbered_place : Numbered (·.id.index) next.declaration
    (file.place grounds directory path folds next).declarations := by
  have counted : (file.kept.zipIdx.map (·.2)).map (next.declaration + ·) =
      List.range' next.declaration file.kept.length := by
    rw [List.zipIdx_map_snd, List.map_add_range', Nat.add_zero]
  rw [Numbered, place, List.map_map, List.length_map, List.length_zipIdx, ← counted, List.map_map]
  rfl

theorem owner_place {declaration : Declaration}
    (mem : declaration ∈ (file.place grounds directory path folds next).declarations) :
    declaration.owner = ⟨next.module⟩ := by
  obtain ⟨_, _, rfl⟩ := List.mem_map.mp mem
  rfl

end ModuleSource

namespace DirectorySource

variable (grounds : Grounds)

/-- The ids of the modules of a directory, and of their declarations, follow each other. -/
theorem numbered_placeFiles (isRoot : Bool) (name : String) (directory : DirectoryId)
    (path : List String) : ∀ (files : List ModuleSource) (next : NextIds),
    let placed := placeFiles grounds isRoot name directory path next files
    Numbered (·.id.index) next.module placed.1 ∧
      Numbered (·.id.index) next.declaration (placed.1.flatMap (·.declarations)) ∧
      placed.2 = ⟨next.directory, next.module + placed.1.length,
        next.declaration + (placed.1.flatMap (·.declarations)).length⟩
  | [], next => ⟨.nil, .nil, rfl⟩
  | file :: rest, next => by
    obtain ⟨modules, declarations, after⟩ := numbered_placeFiles isRoot name directory path rest
      (next.afterModule (file.place grounds directory (ownedPath isRoot name path file)
        (foldsInto isRoot name file) next))
    refine ⟨.cons rfl modules, ?_, ?_⟩
    · rw [placeFiles, List.flatMap_cons]
      exact (ModuleSource.numbered_place ..).append declarations
    · rw [placeFiles, after]
      simp [NextIds.afterModule, Nat.add_assoc, Nat.add_comm 1]

/-- Every module of a placed directory comes from one of its files. -/
theorem mem_placeFiles (isRoot : Bool) (name : String) (directory : DirectoryId)
    (path : List String) : ∀ (files : List ModuleSource) (next : NextIds) {module : Module},
    module ∈ (placeFiles grounds isRoot name directory path next files).1 →
      ∃ file ∈ files, ∃ next, module = file.place grounds directory
        (ownedPath isRoot name path file) (foldsInto isRoot name file) next
  | [], _, _, mem => absurd mem List.not_mem_nil
  | file :: rest, next, module, mem => by
    rw [placeFiles] at mem
    rcases List.mem_cons.mp mem with rfl | mem
    · exact ⟨file, List.mem_cons_self, next, rfl⟩
    · obtain ⟨file', mem', next', rfl⟩ :=
        mem_placeFiles isRoot name directory path rest _ mem
      exact ⟨file', List.mem_cons_of_mem _ mem', next', rfl⟩

/-- The fields of a placed directory that its source and its place determine. -/
theorem place_fields (parent : Option DirectoryId) (path : List String) (next : NextIds)
    (source : DirectorySource) :
    let placed := (place grounds parent path next source).1
    placed.id = ⟨next.directory⟩ ∧ placed.name = source.name ∧ placed.parent = parent ∧
      placed.package = grounds.package ∧ placed.root = grounds.root ∧ placed.path = path := by
  cases source
  rw [place]
  exact ⟨rfl, rfl, rfl, rfl, rfl, rfl⟩

mutual

/-- The ids of a placed directory and of all below it follow each other. -/
theorem consecutive_place (parent : Option DirectoryId) (path : List String) (next : NextIds) :
    ∀ source : DirectorySource,
      let placed := place grounds parent path next source
      Consecutive next placed.1.subtree ∧ placed.2 = next.after placed.1.subtree
  | ⟨name, files, directories⟩ => by
    obtain ⟨modules, declarations, afterFiles⟩ := numbered_placeFiles grounds parent.isNone name
      ⟨next.directory⟩ path files { next with directory := next.directory + 1 }
    obtain ⟨below, afterBelow⟩ := consecutive_placeChildren ⟨next.directory⟩ path
      (placeFiles grounds parent.isNone name ⟨next.directory⟩ path
        { next with directory := next.directory + 1 } files).2 directories
    rw [place]
    dsimp only
    rw [Directory.subtree_eq, ← List.singleton_append]
    refine ⟨.append ⟨.cons rfl .nil, ?_, ?_⟩ ?_, ?_⟩
    · simpa [modulesOf] using modules
    · simpa [declarationsOf, modulesOf] using declarations
    · rw [afterFiles] at below
      simpa [NextIds.after, declarationsOf, modulesOf, afterFiles] using below
    · rw [afterBelow, NextIds.after_append, afterFiles]
      simp [NextIds.after, declarationsOf, modulesOf]

theorem consecutive_placeChildren (parent : DirectoryId) (path : List String) (next : NextIds) :
    ∀ sources : List DirectorySource,
      let placed := placeChildren grounds parent path next sources
      Consecutive next (placed.1.flatMap Directory.subtree) ∧
        placed.2 = next.after (placed.1.flatMap Directory.subtree)
  | [] => ⟨.nil next, rfl⟩
  | child :: rest => by
    obtain ⟨first, afterFirst⟩ := consecutive_place (some parent) (path ++ [child.name]) next child
    obtain ⟨others, afterOthers⟩ := consecutive_placeChildren parent path
      (place grounds (some parent) (path ++ [child.name]) next child).2 rest
    rw [placeChildren]
    dsimp only
    rw [List.flatMap_cons]
    refine ⟨first.append (afterFirst ▸ others), ?_⟩
    rw [afterOthers, NextIds.after_append, afterFirst]

end

theorem mem_placeChildren (parent : DirectoryId) (path : List String) :
    ∀ (sources : List DirectorySource) (next : NextIds) {child : Directory},
      child ∈ (placeChildren grounds parent path next sources).1 →
        ∃ source ∈ sources, ∃ next,
          child = (place grounds (some parent) (path ++ [source.name]) next source).1
  | [], _, _, mem => absurd mem List.not_mem_nil
  | source :: rest, next, child, mem => by
    rw [placeChildren] at mem
    rcases List.mem_cons.mp mem with rfl | mem
    · exact ⟨source, List.mem_cons_self, next, rfl⟩
    · obtain ⟨source', mem', next', rfl⟩ := mem_placeChildren parent path rest _ mem
      exact ⟨source', List.mem_cons_of_mem _ mem', next', rfl⟩

/-- A placed directory is shaped, whatever its place. -/
theorem shaped_place (parent : Option DirectoryId) (path : List String) (next : NextIds)
    (source : DirectorySource) : (place grounds parent path next source).1.Shaped := by
  obtain ⟨name, files, directories⟩ := source
  rw [place]
  constructor
  case sits =>
    intro m mem
    obtain ⟨file, -, next', rfl⟩ := mem_placeFiles grounds _ _ _ _ files _ mem
    refine ⟨rfl, rfl, rfl, rfl, fun folds => ?_, fun _ mem => ?_, ?_⟩
    · exact (of_decide_eq_true (Bool.and_eq_true_iff.mp folds).2)
    · exact ModuleSource.owner_place _ _ _ _ _ _ mem
    · rw [ModuleSource.names_place]
      exact (nodup_firstsBy _ _ _).1
  case folds =>
    intro m mem
    obtain ⟨file, -, next', rfl⟩ := mem_placeFiles grounds _ _ _ _ files _ mem
    rfl
  all_goals
    intro child mem
    obtain ⟨source, -, next', rfl⟩ := mem_placeChildren grounds _ _ directories _ mem
    obtain ⟨-, name', parent', package', root', path'⟩ :=
      place_fields grounds (some ⟨next.directory⟩) (path ++ [source.name]) next' source
  case parent => exact parent'
  case package => exact package'
  case root => exact root'
  case path => rw [path', name']

/-- What holds of a placed directory whose source is fit for it holds of all directories below, if
the sub-directories of a fit source are fit. -/
theorem forall_mem_subtree_place (P : Directory → Prop) (Fit : Bool → DirectorySource → Prop)
    (here : ∀ parent path next source, Fit (Option.isNone parent) source →
      P (place grounds parent path next source).1)
    (below : ∀ isRoot source, Fit isRoot source → ∀ child ∈ source.directories, Fit false child) :
    ∀ (d : Directory) (parent : Option DirectoryId) (path : List String) (next : NextIds)
      (source : DirectorySource), d = (place grounds parent path next source).1 →
        Fit parent.isNone source → ∀ e ∈ d.subtree, P e := by
  intro d
  induction d using Directory.induction with
  | step d ih =>
    rintro parent path next ⟨name, files, directories⟩ rfl fit e mem
    rcases Directory.mem_subtree.mp mem with rfl | ⟨child, hc, he⟩
    · exact here parent path next _ fit
    · have hc' := hc
      rw [place] at hc'
      obtain ⟨source, hs, next', same⟩ := mem_placeChildren grounds _ _ directories _ hc'
      exact ih child hc _ _ _ source same (below _ _ fit source hs) e he

end DirectorySource

end LetModules
