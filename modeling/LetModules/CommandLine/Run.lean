import LetModules.CommandLine.Arguments
import LetModules.Diagnostic.Snippet
import LetModules.Workspace.Report

/-!
What a run prints and how it ends. A run fails with code 1 if its packages cannot be loaded or hold
errors, and with code 2 if its arguments are turned down.
-/

namespace LetModules.CommandLine

/-- How a run ends: its exit code and what it printed. -/
structure Outcome where
  exit : Nat
  stdout : String
  stderr : String
  deriving DecidableEq, Repr

/-- Lines of text, each with its end. -/
def lines (texts : List String) : String := String.join (texts.map (· ++ "\n"))

/-! ### Failures -/

/-- A text whose further lines start below its first one. -/
def hanging (lead : String) (text : String) : String :=
  lead ++ ("\n" ++ "".pushn ' ' lead.length).intercalate (text.splitOn "\n")

/-- Causes below one another, numbered if there are several. -/
def listed : List String → List String
  | [cause] => [hanging "    " cause]
  | causes => causes.zipIdx.map fun (cause, n) =>
    hanging ("".pushn ' ' (5 - (toString n).length) ++ toString n ++ ": ") cause

/-- A failure with what lies behind it, step by step. -/
def failureText : List String → String
  | [] => ""
  | [failure] => lines ["Error: " ++ failure]
  | failure :: causes => lines (["Error: " ++ failure, "", "Caused by:"] ++ listed causes)

/-! ### Commands -/

/-- What is said of a package after it was loaded. -/
def loadedLine (package : LoadedPackage) : String :=
  s!"Loaded package {package.manifest.name} from {package.root} ({package.fileCount} files)"

/-- What is said of a workspace after it was resolved. -/
def resolvedLine (resolution : Resolution) : String :=
  s!"Resolved {resolution.tree.modules.length} modules, {resolution.bindings.length} import sites"

/-- The last line of a check. -/
def summaryLine (subject : String) (tally : Tally) : String :=
  if tally.hasErrors then s!"error: {subject}: {tally.summary}"
  else if 0 < tally.warnings then s!"warning: {subject}: {tally.summary}"
  else s!"ok: {subject}"

namespace Outcome

/-- The exit code of a run that found errors or none. -/
def code (failed : Bool) : Nat := if failed then 1 else 0

/-- The report of a workspace for other programs. -/
def ofReport (report : Report) : Outcome :=
  ⟨code report.hasErrors, lines [Json.write .pretty report.toJson], ""⟩

/-- The diagnostics of a workspace and their count. -/
def ofCheck (verbose : Bool) (workspace : Workspace) : Outcome :=
  let tally := Tally.ofDiagnostics workspace.diagnostics
  let cycles := workspace.resolution.graph.cycles.length
  let subject := s!"checked {workspace.packages.length} package(s)"
  ⟨code tally.hasErrors, "",
    Diagnostic.renderAll workspace.sources workspace.diagnostics
      ++ lines (if verbose && 0 < cycles then [s!"{cycles} import cycle(s) (allowed)"] else [])
      ++ lines [summaryLine subject tally]⟩

/-- The modules that a module can see. -/
def ofModules (verbose : Bool) (workspace : Workspace) (requester : String)
    (package : Option String) : Outcome :=
  match workspace.findModule requester package with
  | .error problem => ⟨1, "", failureText [problem.text]⟩
  | .ok module =>
    let tree := workspace.resolution.tree
    let visible := (workspace.resolution.visibleModules module).map tree.displayPath
    let name := tree.displayPath module
    ⟨0, lines visible,
      lines (if verbose then [s!"Modules visible from {name}: {visible.length}"] else [])⟩

/-- The lines of a test module. -/
def testLines (listing : TestListing) : List String :=
  s!"  {listing.test} -> {listing.production}" ::
    (if listing.entryPoints.isEmpty then ["    (no public entry points)"]
    else listing.entryPoints.map ("    - " ++ ·))

/-- Two tests claim one module. -/
def isConflict (problem : Problem) : Bool :=
  match problem.cause with
  | .duplicatePairing .. => true
  | _ => false

/-- The tests of a workspace. Two tests of one module are an error. -/
def ofTests (workspace : Workspace) : Outcome :=
  let tests := workspace.tests
  let unpaired := workspace.unpairedTests
  let conflicts := workspace.resolution.problems.filter isConflict
  ⟨code !conflicts.isEmpty,
    lines (if tests.isEmpty then ["No paired test modules found."]
      else s!"Discovered {tests.length} test module(s):" :: tests.flatMap testLines)
      ++ lines (if unpaired.isEmpty then []
        else s!"Unpaired test module(s): {unpaired.length}" :: unpaired.map ("  - " ++ ·)),
    Diagnostic.renderAll workspace.sources (conflicts.map (·.toDiagnostic))⟩

/-- The outcome of an action on a loaded workspace. -/
def ofAction (verbose : Bool) (workspace : Workspace) : Action → Outcome
  | .check true => ofReport workspace.report
  | .check false => ofCheck verbose workspace
  | .modules requester package => ofModules verbose workspace requester package
  | .tests => ofTests workspace

/-- An outcome with lines about its progress in front. -/
def after (progress : List String) (outcome : Outcome) : Outcome :=
  { outcome with stderr := lines progress ++ outcome.stderr }

end Outcome

namespace Command

/-- Runs a command. -/
def run (disk : Disk) (command : Command) : Outcome :=
  let progress (packages : List LoadedPackage) (more : List String) : List String :=
    if command.verbose then packages.map loadedLine ++ more else []
  match Workspace.load disk command.settings command.packages with
  | .error failure =>
    Outcome.after (progress failure.loaded []) ⟨1, "", failureText failure.causes⟩
  | .ok workspace =>
    (Outcome.ofAction command.verbose workspace command.action).after
      (progress workspace.packages [resolvedLine workspace.resolution])

end Command

/-! ### Refused arguments -/

def versionText : String := "letc 0.1.0"

/-- How the program is called. -/
def usage : List String :=
  ["Usage: letc [OPTIONS] <COMMAND>",
    "",
    "Commands:",
    "  check <PACKAGE_DIR>... [--json]",
    "      resolve all packages and report every error",
    "  modules <PACKAGE_DIR>... --from <MODULE_PATH> [--package <NAME>]",
    "      list the modules visible from one module",
    "  tests <PACKAGE_DIR>...",
    "      list test pairings and their entry points",
    "",
    "Options:",
    "      --test-suffix <SUFFIX>  what marks the name of a test module",
    "      --no-parallel           resolve imports one after the other",
    "  -v, --verbose               say what is being done",
    "  -h, --help                  print this text",
    "  -V, --version               print the version"]

namespace Refusal

/-- What is wrong with the arguments. -/
def text : Refusal → String
  | .help | .version | .nothingGiven => ""
  | .missingVerb => "a command is required"
  | .unknownVerb => "unrecognized command"
  | .unknownArgument => "unexpected argument"
  | .conflict => "an option is given more than once"
  | .unneededValue => "an option takes no value"
  | .invalidValue => "a value is required"
  | .missingArgument => "a required argument is missing"
  | .emptyTestSuffix => "--test-suffix must not be empty"

/-- The outcome of a run whose arguments are refused. -/
def outcome (refusal : Refusal) : Outcome :=
  match refusal with
  | .help => ⟨0, lines usage, ""⟩
  | .version => ⟨0, lines [versionText], ""⟩
  | .nothingGiven => ⟨2, "", lines usage⟩
  | .emptyTestSuffix => ⟨2, "", failureText [refusal.text]⟩
  | _ => ⟨2, "", lines (("error: " ++ refusal.text) :: "" :: usage)⟩

end Refusal

end LetModules.CommandLine
