import LetModules.Proofs.Loading.Walk
import LetModules.Proofs.Tree.Atomicity

/-!
Loading finds each source file once. A root is read if its source files are text
(`exists_readAll_eq_ok`), and what comes of it holds each of them in the directory of its own folder
and nothing else (`finds_of_readRoot`). For a loaded package this leaves one layout that a tree
refuses: a plain file beside a directory of its name in which a file has that name again.
-/

namespace LetModules

namespace Entry

variable {extension : String}

mutual

/-- An entry can be read if the source files in it are text. -/
theorem exists_read_eq_ok (path : String) {parents : List String}
    (openWay : ∀ piece ∈ parents, FoundFile.isHiding piece = false) :
    ∀ (entry : Entry) (sources : Sources),
      (∀ file ∈ (regular parents entry).filter (·.isSource extension), file.text.isSome) →
        ∃ reading, read extension path entry sources = .ok reading
  | .file name text, sources, readable => by
    rw [read.eq_def]
    dsimp only
    split
    · exact ⟨_, rfl⟩
    · rename_i shown
      cases named : moduleName? extension name with
      | none => exact ⟨_, rfl⟩
      | some module =>
        rw [filter_regular_of_named openWay (by simpa using shown) named] at readable
        have isText := readable _ (List.mem_singleton.mpr rfl)
        cases text with
        | none => cases isText
        | some text => exact ⟨_, rfl⟩
  | .folder name inside, sources, readable => by
    rw [read]
    split
    · exact ⟨_, rfl⟩
    · rename_i shown
      rw [regular] at readable
      have openInside : ∀ piece ∈ parents ++ [name], FoundFile.isHiding piece = false :=
        FoundFile.shown_append openWay (Bool.eq_false_iff.mpr shown)
      obtain ⟨inner, done⟩ := exists_readAll_eq_ok (Path.join path name) openInside inside sources
        readable
      refine ⟨inner.inFolder name, ?_⟩
      rw [done]
      rfl

/-- Entries can be read if the source files in them are text. -/
theorem exists_readAll_eq_ok (path : String) {parents : List String}
    (openWay : ∀ piece ∈ parents, FoundFile.isHiding piece = false) :
    ∀ (entries : List Entry) (sources : Sources),
      (∀ file ∈ (regularAll parents entries).filter (·.isSource extension), file.text.isSome) →
        ∃ reading, readAll extension path entries sources = .ok reading
  | [], sources, _ => ⟨.nothing sources, by rw [readAll]⟩
  | entry :: entries, sources, readable => by
    rw [regularAll, List.filter_append, List.forall_mem_append] at readable
    obtain ⟨first, begun⟩ := exists_read_eq_ok path openWay entry sources readable.1
    obtain ⟨later, ended⟩ :=
      exists_readAll_eq_ok path openWay entries first.sources readable.2
    refine ⟨first.followedBy later, ?_⟩
    rw [readAll, begun]
    dsimp only
    rw [ended]
    rfl

end

end Entry

namespace Disk

/-- A root holds the source files below it, each once and in the directory of its own folder, and
nothing else: no empty directories, and no name twice in a directory. -/
structure Finds (extension path : String) (entries : List Entry) (sources : Sources)
    (root : DirectorySource) : Prop where
  found : ∃ found, List.Forall₂ (FoundFile.Became path sources)
    (Entry.sourceFiles extension entries) found ∧ found.Perm (root.located [])
  filed : ∃ walk, List.Forall₂ (FoundFile.Became path sources)
    (Entry.sourceFiles extension (Entry.sortedAll entries)) walk ∧
      DirectorySource.fileAll walk ⟨root.name, [], []⟩ = root
  once : ((root.located []).map fun entry => (entry.1, entry.2.name)).Nodup
  inhabited : ∀ child ∈ root.directories, ∀ directory ∈ child.subtree, directory.located [] ≠ []
  apart : root.Apart

/-- A root that was read holds the source files below it. -/
theorem finds_of_readRoot {extension path : String} {entries : List Entry}
    (distinct : Entry.Distinct entries) {sources : Sources} {root : DirectorySource}
    {reading : Reading} (done : readRoot extension path entries sources = .ok (root, reading)) :
    Finds extension path entries reading.sources root := by
  obtain ⟨reads, files, directories⟩ := exists_reads_of_readRoot done
  dsimp only at reads files directories
  have tidy := reads.tidy distinct.sortedAll
  have below : ∀ child ∈ root.directories, child.Tidy := directories ▸ tidy.below
  have apart : root.Apart := by
    rw [DirectorySource.apart_iff, files, directories]
    exact ⟨tidy.fileNames, tidy.directoryNames, fun child mem => (tidy.below child mem).apart⟩
  obtain ⟨walk, walked, filed⟩ := reads.walked path distinct.sortedAll [] rfl (by simp)
  rw [DirectorySource.map_under_nil] at walked
  have whole : DirectorySource.fileAll walk ⟨root.name, [], []⟩ = root := by
    rw [filed root.name [] [] (List.disjoint_nil_left _), List.nil_append, List.nil_append, ← files,
      ← directories]
    cases root
    rfl
  constructor
  case filed => exact ⟨walk, walked, whole⟩
  case found =>
    -- The walk goes through the sorted folders; `entries` has the same files in another order.
    obtain ⟨found, became, perm⟩ := List.perm_comp_forall₂
      (Entry.sourceFiles_sortedAll extension entries).symm walked
    have held := DirectorySource.located_fileAll_perm walk ⟨root.name, [], []⟩
    rw [whole, DirectorySource.located_nil, List.append_nil] at held
    exact ⟨found, became, perm.trans held.symm⟩
  case once => exact DirectorySource.nodup_located apart []
  case inhabited =>
    exact fun child mem d hd => ((below child mem).of_mem_subtree d hd).located_ne_nil []
  case apart => exact apart

/-- A root with readable source files is read. -/
theorem exists_readRoot_eq_ok {extension path : String} {entries : List Entry}
    (readable : ∀ file ∈ Entry.sourceFiles extension entries, file.text.isSome)
    (sources : Sources) :
    ∃ root reading, readRoot extension path entries sources = .ok (root, reading) := by
  have readableSorted : ∀ file ∈ Entry.sourceFiles extension (Entry.sortedAll entries),
      file.text.isSome := by
    intro file mem
    exact readable file ((Entry.sourceFiles_sortedAll extension entries).mem_iff.mp mem)
  obtain ⟨reading, done⟩ := Entry.exists_readAll_eq_ok path (List.forall_mem_nil _)
    (Entry.sortedAll entries) sources readableSorted
  refine ⟨⟨(Path.fileName? path).getD "", reading.files, reading.directories⟩, reading, ?_⟩
  rw [readRoot, done]
  rfl

/-- Each root of a loaded package was read from a folder. -/
theorem exists_readRoot_of_mem_roots {disk : Disk} {settings : Settings} {directory : String}
    {before after : Sources} {package : LoadedPackage}
    (done : disk.loadPackage settings directory before = .ok (package, after)) :
    ∀ root ∈ package.toSource.roots, ∃ extension path entries sources reading,
      disk.folder? path = some entries ∧
        readRoot extension path entries sources = .ok (root, reading) := by
  obtain ⟨manifest, -, done⟩ := exists_of_bind_eq_ok done
  dsimp only at done
  split at done
  · cases done
  · rename_i entries folder
    obtain ⟨⟨source, first⟩, read, done⟩ := exists_of_bind_eq_ok done
    dsimp only at done
    split at done
    · cases done
      intro root mem
      obtain rfl := List.mem_singleton.mp mem
      exact ⟨_, _, _, _, _, folder, read⟩
    · rename_i testEntries testFolder
      obtain ⟨⟨test, second⟩, testRead, done⟩ := exists_of_bind_eq_ok done
      cases done
      intro root mem
      rcases List.mem_pair.mp mem with rfl | rfl
      · exact ⟨_, _, _, _, _, folder, read⟩
      · exact ⟨_, _, _, _, _, testFolder, testRead⟩

/-- The only conflicts in a loaded package are clashes. -/
theorem conflicts_ne_nil_iff_of_loadPackage {disk : Disk}
    (distinct : ∀ path entries, disk.folder? path = some entries → Entry.Distinct entries)
    {settings : Settings} {directory : String} {before after : Sources} {package : LoadedPackage}
    (done : disk.loadPackage settings directory before = .ok (package, after)) :
    package.toSource.conflicts ≠ [] ↔ ∃ root ∈ package.toSource.roots, root.Clash true := by
  rw [PackageSource.conflicts, ne_eq, List.flatMap_eq_nil_iff]
  push Not
  refine exists_congr fun root => and_congr_right fun mem => ?_
  obtain ⟨extension, path, entries, sources, reading, folder, read⟩ :=
    exists_readRoot_of_mem_roots done root mem
  have finds := finds_of_readRoot (distinct path entries folder) read
  exact DirectorySource.conflicts_ne_nil_iff_clash finds.apart

/-- On a disk on which names differ in each folder, a root with readable source files is loaded, and
holds each of them once. A tree then refuses a loaded package only if it has one of that name or if
the package has a plain file beside a directory of its name in which a file has that name again. -/
theorem exact_of_distinct (disk : Disk)
    (distinct : ∀ path entries, disk.folder? path = some entries → Entry.Distinct entries) :
    (∀ extension path entries sources, disk.folder? path = some entries →
      (∀ file ∈ Entry.sourceFiles extension entries, file.text.isSome) →
        ∃ root reading, readRoot extension path entries sources = .ok (root, reading) ∧
          Finds extension path entries reading.sources root) ∧
      ∀ settings directory before package after, ∀ growth : Growth,
        disk.loadPackage settings directory before = .ok (package, after) →
          (growth.added? package.toSource = none ↔
            (growth.tree.packageNamed? package.manifest.name).isSome ∨
              ∃ root ∈ package.toSource.roots, root.Clash true) := by
  constructor
  · intro extension path entries sources folder readable
    obtain ⟨root, reading, done⟩ := exists_readRoot_eq_ok readable sources
    exact ⟨root, reading, done, finds_of_readRoot (distinct path entries folder) done⟩
  · intro settings directory before package after growth done
    rw [Growth.added?_eq_none_iff, ModuleTree.refusals]
    split
    · rename_i taken
      exact iff_of_true (List.cons_ne_nil _ _) (.inl taken)
    · rename_i free
      rw [conflicts_ne_nil_iff_of_loadPackage distinct done]
      exact (or_iff_right free).symm

/-- A root with a plain file beside a directory of its name, and with files that are passed over. -/
def clashingEntries : List Entry :=
  [.folder "List" [.file "notes.txt" none, .file "List.let" (some "fun size")],
    .file ".Draft.let" none, .file "List.let" (some ""), .folder "Empty" []]

/-- A disk with one package, which has this root and no manifest. -/
def clashingDisk : Disk :=
  fun path => if path = "app/src" then some (.folder "src" clashingEntries) else none

theorem clashingEntries_of_folder? {path : String} {entries : List Entry}
    (folder : clashingDisk.folder? path = some entries) : entries = clashingEntries := by
  rw [folder?, clashingDisk] at folder
  split at folder
  · exact (Option.some.inj folder).symm
  · cases folder

theorem distinct_clashingEntries : Entry.Distinct clashingEntries := by
  have inside : Entry.Distinct [.file "notes.txt" none, .file "List.let" (some "fun size")] :=
    .file (by decide) (.file (by decide) .nil)
  exact .folder (by decide) inside
    (.file (by decide) (.file (by decide) (.folder (by decide) .nil .nil)))

theorem exact_of_distinct_sample :
    (∃ root reading, readRoot "let" "app/src" clashingEntries [] = .ok (root, reading) ∧
      Finds "let" "app/src" clashingEntries reading.sources root) ∧
        ∃ package after, clashingDisk.loadPackage .standard "app" [] = .ok (package, after) ∧
          ∃ root ∈ package.toSource.roots, root.Clash true := by
  have distinct : ∀ path entries, clashingDisk.folder? path = some entries →
      Entry.Distinct entries := by
    intro path entries folder
    rw [clashingEntries_of_folder? folder]
    exact distinct_clashingEntries
  obtain ⟨finds, refused⟩ := exact_of_distinct clashingDisk distinct
  refine ⟨finds "let" "app/src" clashingEntries [] rfl (by decide +kernel), ?_⟩
  have answer : (clashingDisk.loadPackage .standard "app" []).toOption.map (fun loaded =>
      Growth.empty.added? loaded.1.toSource) = some none := by decide +kernel
  cases loaded : clashingDisk.loadPackage .standard "app" [] with
  | error problem =>
    rw [loaded] at answer
    cases answer
  | ok result =>
    obtain ⟨package, after⟩ := result
    rw [loaded] at answer
    refine ⟨package, after, rfl, ?_⟩
    rcases (refused _ _ _ _ _ .empty loaded).mp (Option.some.inj answer) with taken | clash
    · cases taken
    · exact clash

end Disk

end LetModules
