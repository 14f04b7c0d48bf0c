import LetModules.Existence.Memo

/-!
Resolving imports. A statement first locates its target module, which must exist for the importer;
then each item is bound to an export of the target that the importer may see. A paired test that
imports from the module it tests is bound to any declaration there, exported or not.
-/

namespace LetModules

/-- An imported item, by its place in the statements of a module. -/
structure Site where
  module : ModuleId
  statement : Nat
  item : Nat
  deriving DecidableEq, Repr

/-- A local name and the declaration it is bound to. -/
structure Binding where
  localName : String
  imported : String
  /-- The concrete declaration, behind all re-exports. -/
  declaration : Declaration
  /-- The declaration that publishes the name in the target module. -/
  via : Declaration
  target : Module
  span : Option Span
  deriving DecidableEq, Repr

namespace Linked

/-- The module that a statement names, before asking whether it exists for the importer. -/
def named (linked : Linked) (path : ModulePath) (importer : Module) : Except Cause Module :=
  match linked.locate path importer with
  | .error cause => .error cause
  | .ok target =>
    if target.id = importer.id then .error (.selfImport (linked.tree.displayPath importer))
    else .ok target

/-- The cause of a module that does not exist for the importer. -/
def hidden (linked : Linked) (target importer : Module) : Cause :=
  .notVisible none (linked.tree.displayPath target) (linked.tree.displayPath importer) none

/-- The module that a statement imports from. -/
def target (linked : Linked) (path : ModulePath) (importer : Module) : Except Cause Module :=
  match linked.named path importer with
  | .error cause => .error cause
  | .ok target =>
    if linked.pairings.isPrivileged importer.id target.id || linked.hasModule target importer then
      .ok target
    else .error (linked.hidden target importer)

/-- The importer may see a declaration, or is the test paired with its owner. -/
def accessible (linked : Linked) (declaration : Declaration) (importer : Module) : Bool :=
  linked.pairings.isPrivileged importer.id declaration.owner ||
    linked.tree.visible declaration importer

/-- The declaration of a name that a paired test finds in the module it tests, with the concrete one
behind it. -/
def privileged (linked : Linked) (name : String) (target : Module) :
    Except Cause (Declaration × Declaration) :=
  let missing := Cause.notExported name (linked.tree.displayPath target)
    (target.declarations.map (·.name))
  match target.declaration? name with
  | none => .error missing
  | some via =>
    match linked.exports.originOf via with
    | none => .error missing
    | some origin => .ok (via, origin)

/-- The export of a name that an importer finds in a module, with the concrete declaration. -/
def exported (linked : Linked) (name : String) (target importer : Module) :
    Except Cause (Declaration × Declaration) :=
  match linked.exports.lookup linked.pairings target name with
  | none =>
    .error (.notExported name (linked.tree.displayPath target)
      (linked.exports.names linked.pairings target))
  | some found =>
    if linked.accessible found.published importer then .ok (found.published, found.origin)
    else
      .error (.notVisible (some name) (linked.tree.displayPath target)
        (linked.tree.displayPath importer) (some found.published.tier))

/-- The binding of an item that is imported from a module. -/
def bind (linked : Linked) (item : ImportItem) (target importer : Module) : Except Cause Binding :=
  let found :=
    if linked.pairings.isPrivileged importer.id target.id then linked.privileged item.name target
    else linked.exported item.name target importer
  found.map fun (via, origin) => ⟨item.localName, item.name, origin, via, target, item.span⟩

end Linked

/-- What an item of an import statement came to. -/
abbrev SiteResult := Site × Except Problem Binding

/-- The results for the imports of one module, and the problems to report. -/
structure ModuleImports where
  sites : List SiteResult
  problems : List Problem
  /-- The local names that have been bound. -/
  bound : List String

namespace ModuleImports

def empty : ModuleImports := ⟨[], [], []⟩

def report (imports : ModuleImports) (problem : Problem) : ModuleImports :=
  { imports with problems := imports.problems ++ [problem] }

/-- Records the result for an item; its problem, if it has one, is reported elsewhere. -/
def record (imports : ModuleImports) (site : Site) (result : Except Problem Binding) :
    ModuleImports :=
  { imports with sites := imports.sites ++ [(site, result)] }

/-- Records a binding. A local name that is bound already is reported, and bound again. -/
def recordBinding (imports : ModuleImports) (site : Site) (binding : Binding) (again : Problem) :
    ModuleImports :=
  let noted :=
    if imports.bound.contains binding.localName then imports.report again
    else { imports with bound := binding.localName :: imports.bound }
  noted.record site (.ok binding)

/-- Records the result for an item of a statement whose target was or was not found. -/
def addItem (linked : Linked) (importer : Module) (statement : ImportStatement) (index : Nat)
    (target : Except Cause Module) (imports : ModuleImports) (item : ImportItem × Nat) :
    ModuleImports :=
  let site : Site := ⟨importer.id, index, item.2⟩
  let place := item.1.span.or statement.span
  match target with
  | .error cause => imports.record site (.error ⟨cause, place, importer.file⟩)
  | .ok target =>
    match linked.bind item.1 target importer with
    | .error cause =>
      let problem : Problem := ⟨cause, place, importer.file⟩
      (imports.report problem).record site (.error problem)
    | .ok binding =>
      let cause := Cause.duplicateImport item.1.localName (linked.tree.displayPath importer)
      imports.recordBinding site binding ⟨cause, place, importer.file⟩

/-- Records the results for a statement. A target that is not found is reported once. -/
def addStatement (linked : Linked) (importer : Module) (imports : ModuleImports)
    (statement : ImportStatement × Nat) : ModuleImports :=
  let target := linked.target statement.1.path importer
  let imports :=
    match target with
    | .ok _ => imports
    | .error cause =>
      imports.report ⟨cause, statement.1.path.span.or statement.1.span, importer.file⟩
  statement.1.items.zipIdx.foldl (addItem linked importer statement.1 statement.2 target) imports

/-- Resolves all imports of a module. -/
def ofModule (linked : Linked) (importer : Module) : ModuleImports :=
  importer.imports.zipIdx.foldl (addStatement linked importer) empty

end ModuleImports

namespace Memo

/-- The module that a statement imports from, with the memory of existence. -/
def target (linked : Linked) (path : ModulePath) (importer : Module) (memo : Memo) :
    Except Cause Module × Memo :=
  match linked.named path importer with
  | .error cause => (.error cause, memo)
  | .ok target =>
    if linked.pairings.isPrivileged importer.id target.id then (.ok target, memo)
    else
      let found := hasModule linked target importer memo
      (if found.1 then .ok target else .error (linked.hidden target importer), found.2)

end Memo

end LetModules
