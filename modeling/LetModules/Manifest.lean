import LetModules.Files.Path
import LetModules.Json.Reader
import LetModules.Json.Writer
import LetModules.Settings

/-!
A package's manifest `let.json`: its name, the packages that it depends on, and the settings of its
layout where they differ from those of the run. Fields that a record leaves out have a standard
value, except the name.
-/

namespace LetModules

/-- Reads a field. An absent one has the value `standard`. -/
def Json.fieldOr (standard : α) (read : Json → Option α) : Option Json → Option α
  | some document => read document
  | none => some standard

namespace Settings

/-- The fields of written settings, in order. -/
def fieldNames : List String := ["source_dir", "test_dir", "extension", "test_suffix", "parallel"]

/-- Reads settings. -/
def ofJson? (document : Json) : Option Settings := do
  match ← document.fields? fieldNames with
  | [sourceDir, testDir, extension, testSuffix, parallel] =>
    some
      ⟨← Json.fieldOr standard.sourceDir Json.asString? sourceDir,
        ← Json.fieldOr standard.testDir Json.asString? testDir,
        ← Json.fieldOr standard.extension Json.asString? extension,
        ← Json.fieldOr standard.testSuffix Json.asString? testSuffix,
        ← Json.fieldOr standard.parallel Json.asBool? parallel⟩
  | _ => none

/-- Settings as a record. -/
def toJson (settings : Settings) : Json :=
  Json.record
    [("source_dir", Json.ofString settings.sourceDir), ("test_dir", Json.ofString settings.testDir),
      ("extension", Json.ofString settings.extension),
      ("test_suffix", Json.ofString settings.testSuffix), ("parallel", .bool settings.parallel)]

end Settings

/-- What a package says of itself. -/
structure Manifest where
  name : String
  dependencies : List String
  /-- The package's own settings. They stand in place of the settings of the run. -/
  settings : Option Settings
  deriving DecidableEq, Repr

namespace Manifest

/-- The name of the manifest's file in a package directory. -/
def fileName : String := "let.json"

/-- The manifest of a package directory without one: the package is named after the directory. -/
def implicit (directory : String) : Manifest :=
  ⟨(Path.fileName? directory).getD "package", [], none⟩

/-- Reads settings, or `null` for none. -/
def settingsOf? : Json → Option (Option Settings)
  | .null => some none
  | document => (Settings.ofJson? document).map some

/-- Reads a manifest. -/
def ofJson? (document : Json) : Option Manifest := do
  match ← document.fields? ["name", "dependencies", "resolver"] with
  | [name, dependencies, settings] =>
    some
      ⟨← Json.asString? (← name), ← Json.fieldOr [] Json.asStrings? dependencies,
        ← Json.fieldOr none settingsOf? settings⟩
  | _ => none

/-- Reads a manifest from the text of its file. -/
def read? (text : String) : Option Manifest := do ofJson? (← Json.read? text)

/-- A manifest as a record. -/
def toJson (manifest : Manifest) : Json :=
  Json.record <|
    [("name", Json.ofString manifest.name), ("dependencies", Json.ofStrings manifest.dependencies)]
      ++ (manifest.settings.map fun settings => ("resolver", settings.toJson)).toList

/-- The text of a manifest. -/
def write (manifest : Manifest) : String := Json.write .compact manifest.toJson

end Manifest

end LetModules
