import LetModules.Diagnostic
import LetModules.Layout
import LetModules.Token

/-!
The outline of a source file: the headers of its declarations, its import statements, and what is
wrong with its syntax. Reading goes on after every problem, so a file always has an outline.
-/

namespace LetModules

/-- What is wrong with the syntax of a file. -/
inductive SyntaxProblem where
  /-- A token at top level that begins no form. -/
  | strayToken (found : Token) (span : Span)
  /-- A token that does not fit, or the end of the file; `item` is where the last keyword of the
  broken form stands, unless the keyword is the very token that does not fit. -/
  | unexpected (expected : String) (found : Option Token) (span : Span) (item : Option Span)
  /-- An import statement without items. -/
  | nothingImported (span : Span)
  deriving DecidableEq, Repr

namespace SyntaxProblem

/-- The code of every syntax error. -/
def code : String := "E0001"

/-- The problem as it is reported about `file`. -/
def toDiagnostic (file : FileId) : SyntaxProblem → Diagnostic
  | .strayToken found span =>
    (Diagnostic.pointing .error (some code)
      s!"expected `import`, `fun` or `type`, found {found.describe}" file span).addNote
      (helpNote "top-level forms are import statements and `fun`/`type` declarations")
  | .unexpected expected found span item =>
    let described := (found.map Token.describe).getD "end of file"
    let diagnostic :=
      Diagnostic.pointing .error (some code) s!"expected {expected}, found {described}" file span
    match item with
    | some start => diagnostic.addLabel ⟨.secondary, file, start, "in this item"⟩
    | none => diagnostic
  | .nothingImported span =>
    Diagnostic.pointing .warning none "import statement imports nothing" file span

/-- Everything but an empty import statement is an error. -/
def isError : SyntaxProblem → Bool
  | .nothingImported _ => false
  | _ => true

end SyntaxProblem

/-- What a stretch of source text declares and imports, and what is wrong with it. -/
structure Outline where
  declarations : List DeclarationHeader
  imports : List ImportStatement
  problems : List SyntaxProblem
  deriving DecidableEq, Repr

namespace Outline

/-- The outline of a text without forms. -/
def empty : Outline := ⟨[], [], []⟩

/-- The outline of two stretches, one after the other. -/
def append (a b : Outline) : Outline :=
  ⟨a.declarations ++ b.declarations, a.imports ++ b.imports, a.problems ++ b.problems⟩

instance : Append Outline := ⟨append⟩

/-- The outline of one declaration. -/
def ofDeclaration (header : DeclarationHeader) : Outline := ⟨[header], [], []⟩

/-- The outline of one import statement. -/
def ofImport (statement : ImportStatement) : Outline := ⟨[], [statement], []⟩

/-- The outline of a stretch that holds nothing but a problem. -/
def ofProblem (problem : SyntaxProblem) : Outline := ⟨[], [], [problem]⟩

/-- Some problem is an error. -/
def hasErrors (outline : Outline) : Bool := outline.problems.any SyntaxProblem.isError

/-- The module that the outline describes, once it has a name and a file. -/
def toModule (outline : Outline) (name : String) (file : FileId) : ModuleSource :=
  ⟨name, some file, outline.declarations, outline.imports⟩

/-- The problems as they are reported about `file`. -/
def diagnostics (outline : Outline) (file : FileId) : List Diagnostic :=
  outline.problems.map (·.toDiagnostic file)

end Outline

end LetModules
