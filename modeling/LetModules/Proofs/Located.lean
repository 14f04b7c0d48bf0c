import LetModules.Proofs.Outline.Marked
import LetModules.Proofs.Pairing.Matching
import LetModules.Proofs.Reexport.Report
import LetModules.Proofs.Tree.Files
import LetModules.Resolution

/-!
Every diagnostic points at real text. A problem that has a file and a place is about a declaration,
a re-export or an import statement of a module (`Concerns`): it has the file of that module, and a
place that is recorded in the outline of that file. So if the files of packages were read from
registered texts, all labels lie within the texts of their own files (`located_ofGrowth`).
-/

namespace LetModules

/-- The label points into the text of its file. -/
def Label.PointsInto (sources : Sources) (label : Label) : Prop :=
  ∃ file, sources.file? label.file = some file ∧ Text.Marks file.text label.span

/-- The file has been read from a registered text. -/
def ModuleSource.ReadFrom (sources : Sources) (file : ModuleSource) : Prop :=
  ∃ id source, sources.file? id = some source ∧
    file = (Outline.read source.text).toModule file.name id

/-- A declaration of the outline has the name of an earlier one. -/
def Outline.Repeats (outline : Outline) (header : DeclarationHeader) : Prop :=
  ∃ i, outline.declarations[i]? = some header ∧
    ∃ earlier ∈ outline.declarations.take i, earlier.name = header.name

/-- The outline is that of the registered text behind a module. -/
structure Sources.Behind (sources : Sources) (m : Module) (outline : Outline) : Prop where
  file : ∃ id source, m.file = some id ∧ sources.file? id = some source ∧
    outline = Outline.read source.text
  imports : m.imports = outline.imports
  headers : ∀ header ∈ m.headers, header ∈ outline.declarations

/-- What a problem of the module `m` is about, given the outline of its file. -/
inductive Linked.Concerns (linked : Linked) (m : Module) (outline : Outline) : Problem → Prop
  /-- A declaration of a name that is taken. -/
  | redeclaration {header : DeclarationHeader} (repeats : outline.Repeats header) :
      Concerns linked m outline
        ⟨.duplicateDeclaration header.name m.pathText, header.span, m.file⟩
  /-- A re-export that stands for nothing. -/
  | reexport {d : Declaration} {cause : Cause} (declared : d ∈ m.declarations)
      (recorded : d.toDeclarationHeader ∈ outline.declarations)
      (fails : Reexport.Fails linked.toScope ⟨m, d⟩ cause) :
      Concerns linked m outline (Reexport.Member.problem ⟨m, d⟩ cause)
  /-- A re-export that begins a cycle. -/
  | cycle {c : Reexport.Cycle (Reexport.Next linked.toScope)} {d : Declaration}
      (first : c.first = ⟨m, d⟩) (declared : d ∈ m.declarations)
      (recorded : d.toDeclarationHeader ∈ outline.declarations) :
      Concerns linked m outline c.report
  /-- An import statement without a target. -/
  | statement {statement : ImportStatement} {cause : Cause}
      (recorded : statement ∈ outline.imports)
      (error : linked.target statement.path m = .error cause) :
      Concerns linked m outline ⟨cause, statement.path.span.or statement.span, m.file⟩
  /-- An imported item that is not bound. -/
  | item {statement : ImportStatement} {item : ImportItem} {target : Module} {cause : Cause}
      (recorded : statement ∈ outline.imports) (listed : item ∈ statement.items)
      (found : linked.target statement.path m = .ok target)
      (error : linked.bind item target m = .error cause) :
      Concerns linked m outline ⟨cause, item.span.or statement.span, m.file⟩
  /-- An imported item whose local name is bound already. -/
  | again {statement : ImportStatement} {item : ImportItem} {target : Module} {binding : Binding}
      (recorded : statement ∈ outline.imports) (listed : item ∈ statement.items)
      (found : linked.target statement.path m = .ok target)
      (bound : linked.bind item target m = .ok binding) :
      Concerns linked m outline
        ⟨.duplicateImport item.localName (linked.tree.displayPath m),
          item.span.or statement.span, m.file⟩

namespace Linked.Concerns

variable {linked : Linked} {m : Module} {outline : Outline} {problem : Problem}

/-- A problem has the file of the module that it concerns. -/
theorem file_eq (concerns : linked.Concerns m outline problem) : problem.file = m.file := by
  cases concerns with
  | @cycle c d first declared recorded => rw [Reexport.Cycle.report, first, Reexport.Member.problem]
  | _ => rfl

theorem mem_places_of_declared {header : DeclarationHeader}
    (recorded : header ∈ outline.declarations) {span : Span}
    (place : header.span = some span ∨ header.source.bind (·.span) = some span) :
    span ∈ outline.places := by
  refine List.mem_append_left _ (List.mem_flatMap.mpr ⟨header, recorded, ?_⟩)
  rcases place with place | place <;> simp [DeclarationHeader.places, place]

theorem mem_places_of_imported {statement : ImportStatement}
    (recorded : statement ∈ outline.imports) {span : Span}
    (place : statement.span = some span ∨ statement.path.span = some span ∨
      ∃ item ∈ statement.items, item.span = some span) : span ∈ outline.places := by
  refine List.mem_append_right _ (List.mem_flatMap.mpr ⟨statement, recorded, ?_⟩)
  rcases place with place | place | ⟨item, listed, place⟩
  · simp [ImportStatement.places, place]
  · simp [ImportStatement.places, place]
  · refine List.mem_append_right _ (List.mem_flatMap.mpr ⟨item, listed, ?_⟩)
    simp [place]

theorem mem_places_of_reexport {d : Declaration}
    (recorded : d.toDeclarationHeader ∈ outline.declarations) {span : Span}
    (place : (d.source.bind (·.span)).or d.span = some span) : span ∈ outline.places := by
  rcases Option.or_eq_some_iff.mp place with place | ⟨-, place⟩
  · exact mem_places_of_declared recorded (.inr place)
  · exact mem_places_of_declared recorded (.inl place)

theorem mem_places_of_item {statement : ImportStatement} {item : ImportItem}
    (recorded : statement ∈ outline.imports) (listed : item ∈ statement.items) {span : Span}
    (place : item.span.or statement.span = some span) : span ∈ outline.places := by
  rcases Option.or_eq_some_iff.mp place with place | ⟨-, place⟩
  · exact mem_places_of_imported recorded (.inr (.inr ⟨item, listed, place⟩))
  · exact mem_places_of_imported recorded (.inl place)

/-- The place of a problem is recorded in the outline of the file that it concerns. -/
theorem mem_places (concerns : linked.Concerns m outline problem) {span : Span}
    (place : problem.span = some span) : span ∈ outline.places := by
  cases concerns with
  | redeclaration repeats =>
    obtain ⟨i, recorded, -⟩ := repeats
    exact mem_places_of_declared (List.mem_of_getElem? recorded) (.inl place)
  | reexport declared recorded fails => exact mem_places_of_reexport recorded place
  | cycle first declared recorded =>
    rw [Reexport.Cycle.report, first] at place
    exact mem_places_of_reexport recorded place
  | statement recorded error =>
    rcases Option.or_eq_some_iff.mp place with place | ⟨-, place⟩
    · exact mem_places_of_imported recorded (.inr (.inl place))
    · exact mem_places_of_imported recorded (.inl place)
  | item recorded listed found error => exact mem_places_of_item recorded listed place
  | again recorded listed found bound => exact mem_places_of_item recorded listed place

end Linked.Concerns

namespace ModuleImports

variable {linked : Linked} {m : Module} {outline : Outline}

/-- All that has been reported concerns the module. -/
def Blames (linked : Linked) (m : Module) (outline : Outline) (imports : ModuleImports) : Prop :=
  ∀ problem ∈ imports.problems, linked.Concerns m outline problem

theorem Blames.report {imports : ModuleImports} (blames : Blames linked m outline imports)
    {problem : Problem} (concerns : linked.Concerns m outline problem) :
    Blames linked m outline (imports.report problem) := by
  intro other mem
  rcases List.mem_append.mp mem with mem | mem
  · exact blames other mem
  · exact List.mem_singleton.mp mem ▸ concerns

/-- Recording an item reports only what concerns the module. -/
theorem Blames.addItem {imports : ModuleImports} (blames : Blames linked m outline imports)
    {statement : ImportStatement} (recorded : statement ∈ outline.imports) (index : Nat)
    {item : ImportItem × Nat} (listed : item.1 ∈ statement.items) :
    Blames linked m outline (ModuleImports.addItem linked m statement index
      (linked.target statement.path m) imports item) := by
  rw [ModuleImports.addItem.eq_def]
  cases found : linked.target statement.path m with
  | error cause => exact blames
  | ok target =>
    dsimp only
    cases bound : linked.bind item.1 target m with
    | error cause => exact blames.report (.item recorded listed found bound)
    | ok binding =>
      dsimp only [recordBinding]
      split
      · exact blames.report (.again recorded listed found bound)
      · exact blames

/-- Recording a statement reports only what concerns the module. -/
theorem Blames.addStatement {imports : ModuleImports} (blames : Blames linked m outline imports)
    {statement : ImportStatement × Nat} (recorded : statement.1 ∈ outline.imports) :
    Blames linked m outline (ModuleImports.addStatement linked m imports statement) := by
  rw [ModuleImports.addStatement]
  refine List.foldlRecOn _ _ ?_ fun imports blames item listed =>
    blames.addItem recorded _ (List.fst_mem_of_mem_zipIdx listed)
  cases error : linked.target statement.1.path m with
  | error cause => exact blames.report (.statement recorded error)
  | ok target => exact blames

/-- What is reported about the imports of a module concerns the module. -/
theorem blames_ofModule (imports : m.imports = outline.imports) :
    Blames linked m outline (ofModule linked m) := by
  refine List.foldlRecOn _ _ (fun _ absent => absurd absent List.not_mem_nil)
    fun _ blames statement listed => blames.addStatement ?_
  exact imports ▸ List.fst_mem_of_mem_zipIdx listed

end ModuleImports

theorem firstsBy_sublist (key : α → String) : ∀ (seen : List String) (entries : List α),
    (firstsBy key seen entries).Sublist entries
  | _, [] => .slnil
  | seen, a :: rest => by
    rw [firstsBy]
    split
    · exact (firstsBy_sublist key seen rest).cons a
    · exact (firstsBy_sublist key (key a :: seen) rest).cons_cons a

/-- Behind a module that has the contents of a file stands the text that the file was read from. -/
theorem ModuleSource.ReadFrom.behind {sources : Sources} {file : ModuleSource}
    (read : file.ReadFrom sources) {path : List String} {m : Module}
    (same : file.contents path = m.contents) :
    ∃ outline, sources.Behind m outline ∧ outline.declarations = file.declarations := by
  obtain ⟨id, source, found, whole⟩ := read
  simp only [contents, Module.contents, Contents.mk.injEq] at same
  obtain ⟨-, -, sameFile, imports, headers⟩ := same
  rw [whole] at sameFile imports headers ⊢
  have recorded : ∀ header ∈ m.headers, header ∈ (Outline.read source.text).declarations := by
    intro header mem
    rw [← headers] at mem
    exact (firstsBy_sublist _ _ _).subset mem
  exact ⟨_, ⟨⟨id, source, sameFile.symm, found, rfl⟩, imports.symm, recorded⟩, rfl⟩

theorem ModuleSource.repeats_of_mem_repetitions {file : ModuleSource} {outline : Outline}
    (same : outline.declarations = file.declarations) {header : DeclarationHeader}
    (mem : header ∈ file.repetitions) : outline.Repeats header := by
  obtain ⟨⟨header, i⟩, listed, rfl⟩ := List.mem_map.mp mem
  obtain ⟨listed, again⟩ := List.mem_filter.mp listed
  obtain ⟨earlier, before, named⟩ := List.any_eq_true.mp again
  refine ⟨i, ?_, earlier, same ▸ before, by simpa using named⟩
  rw [same]
  exact List.mem_zipIdx_iff_getElem?.mp listed

namespace Resolution

/-- What is reported with a file and a place is about the module of that file, and its place is
recorded in the outline of that file; and all labels point into the texts of their files. -/
structure Located (sources : Sources) (r : Resolution) : Prop where
  problems : ∀ problem ∈ r.problems, ∀ file span, problem.file = some file →
    problem.span = some span → ∃ m ∈ r.tree.modules, m.file = some file ∧
      ∃ source, sources.file? file = some source ∧
        r.toLinked.Concerns m (Outline.read source.text) problem ∧
          span ∈ (Outline.read source.text).places
  labels : ∀ diagnostic ∈ r.diagnostics, ∀ label ∈ diagnostic.labels, label.PointsInto sources

variable {sources : Sources} {packages : List PackageSource}

/-- Behind each module of the tree of files that were read stands a registered text. -/
theorem exists_behind (read : ∀ package ∈ packages, ∀ entry ∈ package.ownedFiles,
    entry.1.ReadFrom sources) {m : Module} (mem : m ∈ (Growth.ofSources packages).tree.modules) :
    ∃ outline, sources.Behind m outline := by
  obtain ⟨package, hp, entry, listed, same⟩ := Growth.exists_file mem
  obtain ⟨outline, behind, -⟩ := (read package hp entry listed).behind same
  exact ⟨outline, behind⟩

/-- A problem with a place concerns one of the modules. -/
theorem exists_concerns (settings : Settings) (registry : Registry)
    (read : ∀ package ∈ packages, ∀ entry ∈ package.ownedFiles, entry.1.ReadFrom sources)
    {problem : Problem}
    (mem : problem ∈ (ofGrowth settings (Growth.ofSources packages) registry).problems)
    (placed : problem.span ≠ none) :
    ∃ m ∈ (Growth.ofSources packages).tree.modules, ∃ outline, sources.Behind m outline ∧
      (ofGrowth settings (Growth.ofSources packages) registry).toLinked.Concerns m outline
        problem := by
  have sound := Growth.sound_ofSources packages
  rw [ofGrowth] at mem
  simp only [List.mem_append, or_assoc] at mem
  rcases mem with grown | paired | published | imported
  · obtain ⟨m, hm, package, hp, entry, listed, same, header, again, rfl⟩ :=
      Growth.exists_redeclared grown placed
    obtain ⟨outline, behind, declarations⟩ := (read package hp entry listed).behind same
    have repeats := ModuleSource.repeats_of_mem_repetitions declarations again
    simp only [ModuleSource.contents, Module.contents, Contents.mk.injEq] at same
    obtain ⟨-, path, file, -⟩ := same
    rw [ModuleSource.redeclared, path, file]
    exact ⟨m, hm, outline, behind, .redeclaration repeats⟩
  · rw [Pairing.problems_ofTree sound] at paired
    obtain ⟨late, -, rfl⟩ := List.mem_map.mp paired
    exact absurd rfl placed
  · obtain ⟨cycles, failures, ledger⟩ := @Reexport.exists_ledger_followAll
      (ofGrowth settings (Growth.ofSources packages) registry).toScope sound
    rcases List.mem_append.mp (ledger.problems.mem_iff.mp published) with reported | reported
    · obtain ⟨c, listed, rfl⟩ := List.mem_map.mp reported
      have first := ledger.known c.first (List.mem_append_left _
        (List.mem_flatMap.mpr ⟨c, listed, List.mem_cons_self⟩))
      obtain ⟨outline, behind⟩ := exists_behind read first.owner
      exact ⟨_, first.owner, outline, behind, .cycle rfl first.declared
        (behind.headers _ (List.mem_map_of_mem first.declared))⟩
    · obtain ⟨failure, listed, rfl⟩ := List.mem_map.mp reported
      have known := ledger.known failure.1 (List.mem_append_right _ (List.mem_map_of_mem listed))
      obtain ⟨outline, behind⟩ := exists_behind read known.owner
      exact ⟨_, known.owner, outline, behind, .reexport known.declared
        (behind.headers _ (List.mem_map_of_mem known.declared)) (ledger.fails failure listed).1⟩
  · obtain ⟨imports, listed, mem⟩ := List.mem_flatMap.mp imported
    obtain ⟨m, hm, rfl⟩ := List.mem_map.mp listed
    obtain ⟨outline, behind⟩ := exists_behind read hm
    exact ⟨m, hm, outline, behind, ModuleImports.blames_ofModule behind.imports problem mem⟩

/-- If all files of the packages were read from registered texts, whatever is reported about their
syntax or about their resolution points at real text. -/
theorem located_ofGrowth (settings : Settings) (registry : Registry)
    (read : ∀ package ∈ packages, ∀ entry ∈ package.ownedFiles, entry.1.ReadFrom sources) :
    (∀ id file, sources.file? id = some file →
      ∀ diagnostic ∈ (Outline.read file.text).diagnostics id, ∀ label ∈ diagnostic.labels,
        label.PointsInto sources) ∧
      (ofGrowth settings (Growth.ofSources packages) registry).Located sources := by
  have syntaxPlaced : ∀ id file, sources.file? id = some file →
      ∀ diagnostic ∈ (Outline.read file.text).diagnostics id, ∀ label ∈ diagnostic.labels,
        label.PointsInto sources := by
    intro id file found diagnostic mem label here
    obtain ⟨rfl, marks⟩ := Outline.marks_of_mem_diagnostics mem here
    exact ⟨file, found, marks⟩
  have problems : ∀ problem ∈ (ofGrowth settings (Growth.ofSources packages) registry).problems,
      ∀ file span, problem.file = some file → problem.span = some span →
        ∃ m ∈ (Growth.ofSources packages).tree.modules, m.file = some file ∧
          ∃ source, sources.file? file = some source ∧
            (ofGrowth settings (Growth.ofSources packages) registry).toLinked.Concerns m
              (Outline.read source.text) problem ∧ span ∈ (Outline.read source.text).places := by
    intro problem mem file span inFile place
    have placed : problem.span ≠ none := by simp [place]
    obtain ⟨m, hm, outline, behind, concerns⟩ := exists_concerns settings registry read mem placed
    obtain ⟨id, source, own, found, rfl⟩ := behind.file
    have same : m.file = some file := concerns.file_eq.symm.trans inFile
    obtain rfl : id = file := Option.some.inj (own.symm.trans same)
    exact ⟨m, hm, same, source, found, concerns, concerns.mem_places place⟩
  refine ⟨syntaxPlaced, problems, fun diagnostic mem label here => ?_⟩
  obtain ⟨problem, listed, rfl⟩ := List.mem_map.mp mem
  dsimp only [Problem.toDiagnostic] at here
  split at here
  · rename_i file span inFile place
    obtain rfl := List.mem_singleton.mp here
    obtain ⟨m, -, -, source, found, -, recorded⟩ :=
      problems problem listed file span inFile place
    exact ⟨source, found, Outline.marks_of_mem_places recorded⟩
  · exact absurd here List.not_mem_nil

/-- Two files: one declares a name twice, and one re-exports a name that is not offered and imports
from a module that is not there. -/
def brokenSources : Sources :=
  [⟨"src/A.let", "fun f fun f"⟩, ⟨"src/B.let", "fun g from A import \x7b x \x7d from C"⟩]

/-- The package of the two files. -/
def brokenPackages : List PackageSource :=
  [⟨"app", [], ⟨"src", [(Outline.read "fun f fun f").toModule "A" ⟨0⟩,
    (Outline.read "fun g from A import \x7b x \x7d from C").toModule "B" ⟨1⟩], []⟩, none⟩]

theorem located_ofGrowth_sample :
    (∀ package ∈ brokenPackages, ∀ entry ∈ package.ownedFiles, entry.1.ReadFrom brokenSources) ∧
      (ofSources .standard brokenPackages).Located brokenSources ∧
        (ofSources .standard brokenPackages).problems.map (fun p => (p.file, p.span)) =
          [(some ⟨0⟩, some ⟨6, 11, by decide⟩), (some ⟨1⟩, some ⟨11, 12, by decide⟩),
            (some ⟨1⟩, some ⟨31, 32, by decide⟩)] := by
  have read : ∀ package ∈ brokenPackages, ∀ entry ∈ package.ownedFiles,
      entry.1.ReadFrom brokenSources := by
    intro package hp entry listed
    obtain rfl := List.mem_singleton.mp hp
    rcases List.mem_pair.mp listed with rfl | rfl
    · exact ⟨⟨0⟩, _, rfl, rfl⟩
    · exact ⟨⟨1⟩, _, rfl, rfl⟩
  exact ⟨read, (located_ofGrowth .standard _ read).2, by decide +kernel⟩

end Resolution

end LetModules
