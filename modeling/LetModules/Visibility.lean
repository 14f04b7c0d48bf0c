import LetModules.Tree

/-!
The visibility rule. A module always sees its own declarations. Of others it sees what is public,
what is internal to its package, and what is protected in a directory at or above its own.
-/

namespace LetModules.ModuleTree

/-- The module `requester` may see the declaration. -/
def visible (tree : ModuleTree) (declaration : Declaration) (requester : Module) : Bool :=
  if declaration.owner = requester.id then true
  else
    match tree.module? declaration.owner with
    | none => false
    | some owner =>
      match declaration.tier with
      | .private => false
      | .protected =>
        owner.package = requester.package && tree.isWithin requester.directory owner.directory
      | .internal => owner.package = requester.package
      | .public => true

end LetModules.ModuleTree
