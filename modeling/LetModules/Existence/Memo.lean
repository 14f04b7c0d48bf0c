import LetModules.Existence

/-!
Existence with a memory. Each pair of a module and a requester is answered once; a module asked
about itself needs no memory. A question is asked only as far as needed: the exports of a module
before the modules below it, and those in order until one exists.
-/

namespace LetModules

/-- The answers so far, for pairs of a module and a requester. -/
abbrev Memo := List ((ModuleId × ModuleId) × Bool)

namespace Memo

/-- The answer to a question that has been asked before. -/
def known? (memo : Memo) (module requester : ModuleId) : Option Bool :=
  (memo.find? (·.1 = (module, requester))).map (·.2)

/-- Answers for a module, with `deeper` for the modules in and below the directory it folds. -/
def ask (linked : Linked) (requester module : Module) (deeper : Memo → Bool × Memo) (memo : Memo) :
    Bool × Memo :=
  if module.id = requester.id then (true, memo)
  else
    match memo.known? module.id requester.id with
    | some known => (known, memo)
    | none =>
      let found := if linked.showsExport requester module then (true, memo) else deeper memo
      (found.1, found.2 ++ [((module.id, requester.id), found.1)])

/-- Answers for modules that fold nothing, until one exists. -/
def askPlain (linked : Linked) (requester : Module) : List Module → Memo → Bool × Memo
  | [], memo => (false, memo)
  | module :: rest, memo =>
    let first := ask linked requester module (fun memo => (false, memo)) memo
    if first.1 then first else askPlain linked requester rest first.2

mutual

/-- Answers for a directory: its plain modules first, then what is in its sub-directories. -/
def askBelow (linked : Linked) (requester : Module) : Directory → Memo → Bool × Memo
  | ⟨id, name, parent, package, root, path, modules, children⟩, memo =>
    let directory : Directory := ⟨id, name, parent, package, root, path, modules, children⟩
    let first := askPlain linked requester directory.plain memo
    if first.1 then first else askBelowAny linked requester children first.2

/-- Answers for directories, in order, until something exists. -/
def askBelowAny (linked : Linked) (requester : Module) : List Directory → Memo → Bool × Memo
  | [], memo => (false, memo)
  | child :: rest, memo =>
    let first :=
      match child.fold? with
      | some module => ask linked requester module (askBelow linked requester child) memo
      | none => askBelow linked requester child memo
    if first.1 then first else askBelowAny linked requester rest first.2

end

/-- Whether a module exists for a requester. -/
def hasModule (linked : Linked) (module requester : Module) (memo : Memo) : Bool × Memo :=
  ask linked requester module
    (match linked.folded? module with
      | some directory => askBelow linked requester directory
      | none => fun memo => (false, memo))
    memo

/-- Those of the modules that exist for a requester. -/
def existing (linked : Linked) (requester : Module) : List Module → Memo → List Module × Memo
  | [], memo => ([], memo)
  | module :: rest, memo =>
    let first := hasModule linked module requester memo
    let others := existing linked requester rest first.2
    (if first.1 then module :: others.1 else others.1, others.2)

/-- The modules that exist for a requester, in order. -/
def visibleModules (linked : Linked) (requester : Module) (memo : Memo) : List Module × Memo :=
  let found := existing linked requester (linked.listable requester) memo
  (found.1.mergeSort linked.listedBefore, found.2)

end Memo

end LetModules
