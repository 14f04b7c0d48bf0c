import LetModules.Problem
import LetModules.Settings
import LetModules.Tree

/-!
Pairing test modules with production modules. A test module `NTest` in the directory `P` claims the
production module `P::N`, or, if there is none and `P` itself is named `N`, the one with the path
`P`. Of several claimants the one with the least path gets the module.

The pairing opens all declarations of the production module to its test, and makes the test's public
declarations entry points, which nobody imports.
-/

namespace LetModules

/-- A test module and the production module it tests. -/
structure Pair where
  test : Module
  production : Module
  deriving DecidableEq, Repr

/-- Pairs, by package and then by the path of the test module. -/
abbrev Pairings := List Pair

namespace Pairings

/-- The production module that a test is paired with. -/
def productionOf (pairings : Pairings) (test : ModuleId) : Option Module :=
  (pairings.find? (·.test.id = test)).map (·.production)

/-- The test that a production module is paired with. -/
def testOf (pairings : Pairings) (production : ModuleId) : Option Module :=
  (pairings.find? (·.production.id = production)).map (·.test)

def isPairedTest (pairings : Pairings) (module : ModuleId) : Bool :=
  (pairings.productionOf module).isSome

/-- A declaration that is run as a test and stays out of the exports of its module. -/
def isEntryPoint (pairings : Pairings) (declaration : Declaration) : Bool :=
  declaration.tier = .public && !declaration.isReexport && pairings.isPairedTest declaration.owner

/-- The entry points of a module, which has some only if it is a paired test. -/
def entryPoints (pairings : Pairings) (module : Module) : List Declaration :=
  module.declarations.filter pairings.isEntryPoint

/-- The module `requester` is the test paired with `target`, and sees all of it. -/
def isPrivileged (pairings : Pairings) (requester target : ModuleId) : Bool :=
  (pairings.productionOf requester).any (·.id = target)

end Pairings

namespace Pairing

/-- The production module that a test module claims. -/
def claimed? (tree : ModuleTree) (settings : Settings) (test : Module) : Option Module :=
  match settings.productionName? test.name with
  | none => none
  | some name =>
    let directory := test.path.dropLast
    (tree.production? test.package (directory ++ [name])).or
      (if directory.getLast? = some name then tree.production? test.package directory else none)

/-- By package and then by path. -/
def atMost (a b : Module) : Bool :=
  a.package.index < b.package.index || (a.package = b.package && Text.inOrder a.path b.path)

/-- The test modules of a tree, sorted. -/
def tests (tree : ModuleTree) : List Module := (tree.modules.filter (·.isTest)).mergeSort atMost

/-- The pairs found so far, and the problems. -/
structure Progress where
  pairs : Pairings
  problems : List Problem

/-- Pairs a test module with the one it claims, unless that one is paired already. -/
def step (tree : ModuleTree) (settings : Settings) (progress : Progress) (test : Module) :
    Progress :=
  match claimed? tree settings test with
  | none => progress
  | some production =>
    match progress.pairs.testOf production.id with
    | none => { progress with pairs := progress.pairs ++ [⟨test, production⟩] }
    | some winner =>
      let cause := Cause.duplicatePairing (tree.displayPath test) (tree.displayPath production)
        (tree.displayPath winner)
      { progress with problems := progress.problems ++ [⟨cause, none, test.file⟩] }

/-- The pairs of a tree, and the problem of each claim that came too late. -/
def ofTree (tree : ModuleTree) (settings : Settings) : Progress :=
  (tests tree).foldl (step tree settings) ⟨[], []⟩

end Pairing

end LetModules
