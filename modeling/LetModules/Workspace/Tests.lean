import LetModules.Workspace

/-!
The tests of a workspace: which test module tests which production module, and which of its
declarations a test runner calls.
-/

namespace LetModules

/-- A paired test module. -/
structure TestListing where
  test : String
  production : String
  entryPoints : List String
  deriving DecidableEq, Repr

namespace TestListing

/-- The listing of a pair. -/
def ofPair (resolution : Resolution) (pair : Pair) : TestListing :=
  ⟨resolution.tree.displayPath pair.test, resolution.tree.displayPath pair.production,
    (resolution.pairings.entryPoints pair.test).map (·.name)⟩

end TestListing

namespace Workspace

/-- The pairs in the order in which they were made. -/
def testListings (workspace : Workspace) : List TestListing :=
  workspace.resolution.pairings.map (TestListing.ofPair workspace.resolution)

/-- The pairs in order of the names of the test modules. -/
def tests (workspace : Workspace) : List TestListing :=
  workspace.testListings.mergeSort fun a b => a.test ≤ b.test

/-- The test modules that test nothing, in order of their names. -/
def unpairedTests (workspace : Workspace) : List String :=
  let resolution := workspace.resolution
  let unpaired := resolution.tree.modules.filter fun module =>
    module.isTest && !resolution.pairings.isPairedTest module.id
  (unpaired.map resolution.tree.displayPath).mergeSort fun a b => a ≤ b

end Workspace

end LetModules
