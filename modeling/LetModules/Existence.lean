import LetModules.Exports
import LetModules.Visibility

/-!
Which modules exist for whom. A module exists for a requester if something that it exports is
visible to the requester, or if it folds a directory and one of the modules in or below that
directory exists. A module exists for itself. What does not exist for a module cannot be imported
by it, and is left out when modules are listed for it.

`Memo` keeps answers that were given; looking an answer up never changes it.
-/

namespace LetModules

/-- All that is known about a tree once its re-exports have been followed. -/
structure Linked extends Scope where
  exports : Exports
  deriving Repr

namespace Linked

/-- Something that the module exports is visible to the requester. -/
def showsExport (linked : Linked) (requester module : Module) : Bool :=
  (linked.exports.ofModule linked.pairings module).any fun e =>
    linked.tree.visible e.published requester

/-- The directory that a module folds. -/
def folded? (linked : Linked) (module : Module) : Option Directory :=
  if module.folds then linked.tree.directory? module.directory else none

end Linked

namespace Existence

/-- The answer for a module, when `deeper` is the answer for the modules in and below the directory
it folds. -/
def answer (linked : Linked) (requester module : Module) (deeper : Bool) : Bool :=
  module.id = requester.id || linked.showsExport requester module || deeper

mutual

/-- A plain module of the directory or something in a sub-directory exists. -/
def below (linked : Linked) (requester : Module) : Directory → Bool
  | ⟨id, name, parent, package, root, path, modules, children⟩ =>
    let directory : Directory := ⟨id, name, parent, package, root, path, modules, children⟩
    directory.plain.any (fun module => answer linked requester module false) ||
      belowAny linked requester children

/-- In one of the directories something exists. A folded directory is its folding module. -/
def belowAny (linked : Linked) (requester : Module) : List Directory → Bool
  | [] => false
  | child :: rest =>
    (match child.fold? with
      | some module => answer linked requester module (below linked requester child)
      | none => below linked requester child) ||
      belowAny linked requester rest

end

end Existence

namespace Linked

/-- The module exists for the requester. -/
def hasModule (linked : Linked) (module requester : Module) : Bool :=
  Existence.answer linked requester module
    (match linked.folded? module with
      | some directory => Existence.below linked requester directory
      | none => false)

/-- The packages whose modules a module may import: its own and those that it depends on. -/
def reachablePackages (linked : Linked) (requester : Module) : List PackageId :=
  requester.package :: linked.registry.dependencies requester.package

/-- The modules that can be listed for a requester: the production modules of its reach, without
itself. -/
def listable (linked : Linked) (requester : Module) : List Module :=
  linked.tree.modules.filter fun m =>
    m.isProduction && (linked.reachablePackages requester).contains m.package && m.id ≠ requester.id

/-- By package name and then by path. -/
def listedBefore (linked : Linked) (a b : Module) : Bool :=
  let nameA := linked.tree.packageName a.package
  let nameB := linked.tree.packageName b.package
  nameA < nameB || (nameA = nameB && Text.inOrder a.path b.path)

/-- The modules that exist for a requester, in order. -/
def visibleModules (linked : Linked) (requester : Module) : List Module :=
  ((linked.listable requester).filter (linked.hasModule · requester)).mergeSort linked.listedBefore

end Linked

end LetModules
