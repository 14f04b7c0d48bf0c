/-!
Settings: where a package keeps its sources, and how a test module is named after the module it
tests.
-/

namespace LetModules

/-- The layout of a package and the naming of its tests. -/
structure Settings where
  /-- The directory of production sources, below the package directory. -/
  sourceDir : String
  /-- The directory of test sources, below the package directory. -/
  testDir : String
  /-- The extension of source files, without its dot. -/
  extension : String
  /-- What a test module's name adds to the name of the module it tests. -/
  testSuffix : String
  /-- Whether the imports of different modules may be resolved side by side. No answer depends on
  it. -/
  parallel : Bool
  deriving DecidableEq, Repr

namespace Settings

/-- The standard layout. -/
def standard : Settings := ⟨"src", "test", "let", "Test", true⟩

/-- The name of the module that a test module of this name tests: what stands before the suffix,
unless nothing does. -/
def productionName? (settings : Settings) (test : String) : Option String :=
  let suffix := settings.testSuffix.toList
  let name := test.toList.take (test.toList.length - suffix.length)
  if name ≠ [] ∧ name ++ suffix = test.toList then some (String.ofList name) else none

end Settings

end LetModules
