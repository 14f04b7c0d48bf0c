import LetModules.CommandLine.Run
import LetModules.Proofs.Loading.Reads
import Mathlib.Logic.Basic

/-!
A check tells people and other programs the same. Whatever is reported is an error or a warning, so
splitting the diagnostics by being an error loses nothing, and both halves are as long as the tally
says. A check fails in either way of reporting exactly if some file has a syntax error or resolving
met a problem (`oneVerdict_of_load`).
-/

namespace LetModules

/-- What a count of errors and one of warnings add up to. -/
theorem Tally.ofDiagnostics_eq (diagnostics : List Diagnostic) :
    Tally.ofDiagnostics diagnostics =
      ⟨(diagnostics.filter (·.isError)).length,
        (diagnostics.filter (·.severity = .warning)).length⟩ := by
  have run : ∀ (diagnostics : List Diagnostic) (tally : Tally),
      diagnostics.foldl (fun tally diagnostic => tally.record diagnostic.severity) tally =
        ⟨tally.errors + (diagnostics.filter (·.isError)).length,
          tally.warnings + (diagnostics.filter (·.severity = .warning)).length⟩ := by
    intro diagnostics
    induction diagnostics with
    | nil => exact fun _ => rfl
    | cons diagnostic rest ih =>
      intro tally
      rw [List.foldl_cons, ih]
      obtain ⟨severity, _⟩ := diagnostic
      cases severity <;> simp [record, Diagnostic.isError, Severity.isError] <;> omega
  rw [ofDiagnostics, run]
  simp [empty]

/-- A syntax problem is reported as an error or as a warning. -/
theorem SyntaxProblem.severity_toDiagnostic (problem : SyntaxProblem) (file : FileId) :
    (problem.toDiagnostic file).severity = if problem.isError then .error else .warning := by
  cases problem with
  | unexpected expected found span item => cases item <;> rfl
  | _ => rfl

namespace Workspace

/-- A check counts what it reports, and it reports all diagnostics, split into errors and warnings.
Both ways of reporting fail together, and exactly if something is wrong. -/
structure OneVerdict (w : Workspace) : Prop where
  errors : w.report.errors =
    (w.diagnostics.filter (·.severity = .error)).map (DiagnosticRecord.ofDiagnostic w.sources)
  warnings : w.report.warnings =
    (w.diagnostics.filter (·.severity = .warning)).map (DiagnosticRecord.ofDiagnostic w.sources)
  whole : (w.report.errors ++ w.report.warnings).Perm
    (w.diagnostics.map (DiagnosticRecord.ofDiagnostic w.sources))
  countedErrors : w.report.errors.length = (Tally.ofDiagnostics w.diagnostics).errors
  countedWarnings : w.report.warnings.length = (Tally.ofDiagnostics w.diagnostics).warnings
  verdict : w.report.hasErrors = (Tally.ofDiagnostics w.diagnostics).hasErrors
  exits : ∀ verbose, (CommandLine.Outcome.ofReport w.report).exit =
    (CommandLine.Outcome.ofCheck verbose w).exit
  fails_iff : w.report.hasErrors = true ↔
    (∃ file ∈ w.sources, (Outline.read file.text).hasErrors = true) ∨ w.resolution.problems ≠ []

theorem errors_report (w : Workspace) : w.report.errors =
    (w.diagnostics.filter (·.isError)).map (DiagnosticRecord.ofDiagnostic w.sources) := by
  rw [report, List.partition_eq_filter_filter]

theorem warnings_report (w : Workspace) : w.report.warnings =
    (w.diagnostics.filter (!·.isError)).map (DiagnosticRecord.ofDiagnostic w.sources) := by
  rw [report, List.partition_eq_filter_filter]
  rfl

variable {w : Workspace}

/-- Of the diagnostics of a workspace, those that are no errors are warnings. -/
theorem severity_of_mem_diagnostics
    (collected : w.syntaxDiagnostics = Sources.complaints 0 w.sources) {diagnostic : Diagnostic}
    (mem : diagnostic ∈ w.diagnostics) :
    diagnostic.severity = .error ∨ diagnostic.severity = .warning := by
  rcases List.mem_append.mp mem with mem | mem
  · rw [collected] at mem
    obtain ⟨⟨file, i⟩, -, mem⟩ := List.mem_flatMap.mp mem
    obtain ⟨problem, -, rfl⟩ := List.mem_map.mp mem
    rw [SyntaxProblem.severity_toDiagnostic]
    split <;> simp
  · obtain ⟨problem, -, rfl⟩ := List.mem_map.mp mem
    exact .inl rfl

/-- The outlines of files complain about an error exactly if one of the files has one. -/
theorem exists_error_complaints_iff (start : Nat) (files : Sources) :
    (∃ diagnostic ∈ Sources.complaints start files, diagnostic.isError = true) ↔
      ∃ file ∈ files, (Outline.read file.text).hasErrors = true := by
  have ofFile : ∀ (file : SourceFile) (id : FileId),
      (∃ diagnostic ∈ (Outline.read file.text).diagnostics id, diagnostic.isError = true) ↔
        (Outline.read file.text).hasErrors = true := by
    intro file id
    simp only [Outline.diagnostics, Outline.hasErrors, List.mem_map, exists_exists_and_eq_and,
      List.any_eq_true]
    refine exists_congr fun problem => and_congr_right fun _ => ?_
    rw [Diagnostic.isError, SyntaxProblem.severity_toDiagnostic]
    cases problem.isError <;> simp [Severity.isError]
  induction files generalizing start with
  | nil => simp [Sources.complaints]
  | cons file rest ih =>
    have split := Sources.complaints_append start [file] rest
    rw [List.singleton_append] at split
    rw [split]
    simp only [List.mem_append, or_and_right, exists_or, ih, List.mem_cons]
    refine or_congr_left ?_
    simpa [Sources.complaints] using ofFile file ⟨start⟩

/-- Some diagnostic is an error exactly if a file has a syntax error or resolving met a problem. -/
theorem exists_error_iff (collected : w.syntaxDiagnostics = Sources.complaints 0 w.sources) :
    (∃ diagnostic ∈ w.diagnostics, diagnostic.isError = true) ↔
      (∃ file ∈ w.sources, (Outline.read file.text).hasErrors = true) ∨
        w.resolution.problems ≠ [] := by
  have resolved : (∃ diagnostic ∈ w.resolution.diagnostics, diagnostic.isError = true) ↔
      w.resolution.problems ≠ [] := by
    constructor
    · rintro ⟨diagnostic, mem, -⟩
      obtain ⟨problem, mem, -⟩ := List.mem_map.mp mem
      exact List.ne_nil_of_mem mem
    · intro some_problem
      obtain ⟨problem, mem⟩ := List.exists_mem_of_ne_nil _ some_problem
      exact ⟨_, List.mem_map_of_mem mem, rfl⟩
  rw [← exists_error_complaints_iff 0, ← resolved, diagnostics, collected]
  simp only [List.mem_append, or_and_right, exists_or]

/-- In a loaded workspace both ways of reporting a check come to one verdict. -/
theorem oneVerdict_of_load {disk : Disk} {settings : Settings} {directories : List String}
    (loaded : Workspace.load disk settings directories = .ok w) : w.OneVerdict := by
  have collected := syntaxDiagnostics_of_load loaded
  have errors : w.diagnostics.filter (·.isError) =
      w.diagnostics.filter (·.severity = .error) := by
    refine List.filter_congr fun diagnostic mem => ?_
    rcases severity_of_mem_diagnostics collected mem with severity | severity <;>
      simp [Diagnostic.isError, Severity.isError, severity]
  have warnings : w.diagnostics.filter (!·.isError) =
      w.diagnostics.filter (·.severity = .warning) := by
    refine List.filter_congr fun diagnostic mem => ?_
    rcases severity_of_mem_diagnostics collected mem with severity | severity <;>
      simp [Diagnostic.isError, Severity.isError, severity]
  have verdict : w.report.hasErrors = (Tally.ofDiagnostics w.diagnostics).hasErrors := by
    rw [Report.hasErrors, errors_report, Tally.ofDiagnostics_eq, Tally.hasErrors]
    cases w.diagnostics.filter (·.isError) <;> simp
  have failing : w.report.hasErrors = true ↔
      ∃ diagnostic ∈ w.diagnostics, diagnostic.isError = true := by
    rw [Report.hasErrors, errors_report]
    simp
  constructor
  case errors => rw [errors_report, errors]
  case warnings => rw [warnings_report, warnings]
  case whole =>
    rw [errors_report, warnings_report, ← List.map_append]
    exact (List.filter_append_perm _ _).map _
  case countedErrors => rw [errors_report, List.length_map, Tally.ofDiagnostics_eq]
  case countedWarnings =>
    rw [warnings_report, List.length_map, Tally.ofDiagnostics_eq, warnings]
  case verdict => exact verdict
  case exits =>
    intro verbose
    rw [CommandLine.Outcome.ofReport, CommandLine.Outcome.ofCheck, verdict]
  case fails_iff => rw [failing, exists_error_iff collected]

/-- A package with one file, which declares a name twice and imports nothing from a module that is
not there. -/
def checkedDisk : Disk :=
  Entry.find? (Entry.ofFiles [("app/src/A.let", some "fun f fun f import \x7b\x7d from B")])

theorem oneVerdict_sample : ∃ w, Workspace.load checkedDisk .standard ["app"] = .ok w ∧
    w.OneVerdict ∧ (w.report.errors.length, w.report.warnings.length) = (2, 1) := by
  have counts : ((Workspace.load checkedDisk .standard ["app"]).toOption.map fun w =>
      (w.report.errors.length, w.report.warnings.length)) = some (2, 1) := by decide +kernel
  cases loaded : Workspace.load checkedDisk .standard ["app"] with
  | error failure =>
    rw [loaded] at counts
    cases counts
  | ok w =>
    rw [loaded] at counts
    exact ⟨w, rfl, oneVerdict_of_load loaded, Option.some.inj counts⟩

end Workspace

end LetModules
