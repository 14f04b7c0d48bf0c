import LetModules.Text.Segments
import LetModules.Text.Source
import LetModules.Tier

/-!
What module resolution is told about a package: its directories, and for each source file the
headers of its declarations and its import statements, in source order. Bodies are not part of it.
-/

namespace LetModules

/-- A `::` path as written in an import or a re-export. -/
structure ModulePath where
  segments : List String
  span : Option Span
  deriving DecidableEq, Repr

namespace ModulePath

/-- Reads a path from text, leniently: blank space and empty segments do not count. -/
def parse (text : String) : ModulePath := ⟨Text.trimmedSegments text, none⟩

/-- The path as it is written in messages. -/
def display (path : ModulePath) : String := Text.joined path.segments

/-- A bare module name, without `::`. -/
def isShort (path : ModulePath) : Bool := path.segments.length = 1

end ModulePath

/-- One name of an import statement, and the name after its `as`, if it has one. -/
structure ImportItem where
  name : String
  boundAs : Option String
  span : Option Span
  deriving DecidableEq, Repr

namespace ImportItem

/-- The text before and after the first ` as `. -/
def cutAtAs : List Char → Option (List Char × List Char)
  | [] => none
  | ' ' :: 'a' :: 's' :: ' ' :: rest => some ([], rest)
  | c :: rest => (cutAtAs rest).map fun (before, after) => (c :: before, after)

/-- Reads `name` or `name as bound`. -/
def parse (text : String) : ImportItem :=
  match cutAtAs text.toList with
  | some (name, bound) =>
    ⟨Text.trim (String.ofList name), some (Text.trim (String.ofList bound)), none⟩
  | none => ⟨Text.trim text, none, none⟩

/-- The name that the item introduces in the importing module. -/
def localName (item : ImportItem) : String := item.boundAs.getD item.name

end ImportItem

/-- `import { items } from path;` -/
structure ImportStatement where
  path : ModulePath
  items : List ImportItem
  span : Option Span
  deriving DecidableEq, Repr

/-- What a declaration declares. -/
inductive DeclKind where
  | function
  | type
  | reexport
  deriving DecidableEq, Repr

namespace DeclKind

/-- The kind in words. -/
def description : DeclKind → String
  | .function => "function"
  | .type => "type"
  | .reexport => "re-export"

end DeclKind

/-- The header of a declaration. -/
structure DeclarationHeader where
  name : String
  tier : Tier
  kind : DeclKind
  /-- Where a re-export republishes its name from. -/
  source : Option ModulePath
  span : Option Span
  deriving DecidableEq, Repr

/-- One source file: the name of its module and what it declares and imports. -/
structure ModuleSource where
  name : String
  file : Option FileId
  declarations : List DeclarationHeader
  imports : List ImportStatement
  deriving DecidableEq, Repr

/-- A directory of source files. -/
structure DirectorySource where
  name : String
  files : List ModuleSource
  directories : List DirectorySource
  deriving Repr

/-- A package: its name, the packages it declares a dependency on, and its roots. -/
structure PackageSource where
  name : String
  dependencies : List String
  source : DirectorySource
  test : Option DirectorySource
  deriving Repr

end LetModules
