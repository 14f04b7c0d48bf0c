import LetModules.Text.Source

/-!
Diagnostics: what is reported about source files, by severity, with labels that point into them, and
the count that a run keeps of them.
-/

namespace LetModules

/-- How grave a diagnostic is. -/
inductive Severity where
  | bug
  | error
  | warning
  | note
  | help
  deriving DecidableEq, Repr

namespace Severity

/-- The severity as it is written before a message. -/
def word : Severity → String
  | .bug => "bug"
  | .error => "error"
  | .warning => "warning"
  | .note => "note"
  | .help => "help"

/-- Bugs count as errors. -/
def isError : Severity → Bool
  | .bug | .error => true
  | _ => false

end Severity

/-- A primary label marks the place itself, a secondary one a place that explains it. -/
inductive LabelStyle where
  | primary
  | secondary
  deriving DecidableEq, Repr

/-- A marked place of a source file. -/
structure Label where
  style : LabelStyle
  file : FileId
  span : Span
  message : String
  deriving DecidableEq, Repr

/-- One report about source files. -/
structure Diagnostic where
  severity : Severity
  code : Option String
  message : String
  labels : List Label
  notes : List String
  deriving DecidableEq, Repr

namespace Diagnostic

/-- A diagnostic about one place, with a primary label that says nothing more. -/
def pointing (severity : Severity) (code : Option String) (message : String) (file : FileId)
    (span : Span) : Diagnostic :=
  ⟨severity, code, message, [⟨.primary, file, span, ""⟩], []⟩

/-- Adds a label after the ones that are there. -/
def addLabel (diagnostic : Diagnostic) (label : Label) : Diagnostic :=
  { diagnostic with labels := diagnostic.labels ++ [label] }

/-- Adds a note after the ones that are there. -/
def addNote (diagnostic : Diagnostic) (note : String) : Diagnostic :=
  { diagnostic with notes := diagnostic.notes ++ [note] }

def isError (diagnostic : Diagnostic) : Bool := diagnostic.severity.isError

end Diagnostic

/-- A note that begins with `help:`, once. -/
def helpNote (message : String) : String :=
  if "help:".toList.isPrefixOf message.toList then message else "help: " ++ message

/-- How many errors and warnings have been reported. -/
structure Tally where
  errors : Nat
  warnings : Nat
  deriving DecidableEq, Repr

namespace Tally

def empty : Tally := ⟨0, 0⟩

/-- Notes and help are not counted. -/
def record (tally : Tally) (severity : Severity) : Tally :=
  match severity with
  | .bug | .error => { tally with errors := tally.errors + 1 }
  | .warning => { tally with warnings := tally.warnings + 1 }
  | .note | .help => tally

/-- The count of a list of diagnostics. -/
def ofDiagnostics (diagnostics : List Diagnostic) : Tally :=
  diagnostics.foldl (fun tally diagnostic => tally.record diagnostic.severity) empty

def hasErrors (tally : Tally) : Bool := 0 < tally.errors

/-- A number with its noun, which takes an `s` unless the number is one. -/
def counted (n : Nat) (noun : String) : String :=
  if n = 1 then s!"{n} {noun}" else s!"{n} {noun}s"

/-- Both counts in one line, such as `2 errors, 1 warning`. -/
def summary (tally : Tally) : String :=
  counted tally.errors "error" ++ ", " ++ counted tally.warnings "warning"

end Tally

end LetModules
