import LetModules.Reexport

/-!
Export sets. A module exports its declarations that are not private, except the entry points of a
paired test and the re-exports that stand for nothing. A folded directory exports what its folding
module does; the modules beside that one are never part of it.
-/

namespace LetModules

/-- The declaration that publishes a name, and the concrete one that the name stands for. -/
structure Export where
  name : String
  published : Declaration
  origin : Declaration
  deriving DecidableEq, Repr

/-- What the re-exports of a tree stand for. -/
structure Exports where
  origins : List (DeclarationId × Option Declaration)
  deriving DecidableEq, Repr

namespace Exports

/-- The concrete declaration behind a declaration; none behind a re-export that failed. -/
def originOf (exports : Exports) (declaration : Declaration) : Option Declaration :=
  if declaration.isReexport then
    (exports.origins.find? (·.1 = declaration.id)).bind (·.2)
  else some declaration

/-- The export that a declaration makes. -/
def exportOf (exports : Exports) (pairings : Pairings) (declaration : Declaration) :
    Option Export :=
  if declaration.tier.isPrivate || pairings.isEntryPoint declaration then none
  else (exports.originOf declaration).map fun origin => ⟨declaration.name, declaration, origin⟩

/-- The export set of a module, in the order of its declarations. -/
def ofModule (exports : Exports) (pairings : Pairings) (module : Module) : List Export :=
  module.declarations.filterMap (exports.exportOf pairings)

/-- The export of a name. -/
def lookup (exports : Exports) (pairings : Pairings) (module : Module) (name : String) :
    Option Export :=
  (exports.ofModule pairings module).find? (·.name = name)

/-- The exported names of a module. -/
def names (exports : Exports) (pairings : Pairings) (module : Module) : List String :=
  (exports.ofModule pairings module).map (·.name)

/-- The exports of a tree, and the problem of every re-export that failed. -/
def ofScope (scope : Scope) : Exports × List Problem :=
  let progress := Reexport.followAll scope
  (⟨progress.settled⟩, progress.problems)

end Exports

end LetModules
