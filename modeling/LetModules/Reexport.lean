import LetModules.Scope
import LetModules.Visibility

/-!
Following re-exports to the concrete declarations behind them.

A re-export leads to the declaration of the same name in the module that its path locates, and so on
until a declaration is reached that republishes nothing. Each re-export is followed once: it is
pending until then and settled afterwards. Since a re-export leads to one declaration at most, a
chain either ends or comes back to one of its own members, and then all members of that cycle fail
together with a single report.
-/

namespace LetModules.Reexport

/-- Where a re-export leads. -/
inductive Lead where
  /-- It has no path and stands for itself. -/
  | itself
  /-- A declaration of the module `target`. -/
  | to (target : Module) (published : Declaration)

/-- A declaration of `target` that others may take over. -/
def isOffered (scope : Scope) (declaration : Declaration) : Bool :=
  !declaration.tier.isPrivate && !scope.pairings.isEntryPoint declaration

/-- The cause of a name that a module does not offer for re-export. Re-exports of the module that
lead nowhere count among the names it offers. -/
def notOffered (scope : Scope) (name : String) (target : Module) : Cause :=
  .notExported name (scope.tree.displayPath target)
    ((target.declarations.filter (isOffered scope)).map (·.name))

/-- Where a re-export of the module `owner` leads. -/
def lead (scope : Scope) (owner : Module) (declaration : Declaration) : Except Cause Lead :=
  match declaration.source with
  | none => .ok .itself
  | some path =>
    match scope.locate path owner with
    | .error cause => .error cause
    | .ok target =>
      if target.id = owner.id then .error (.selfImport (scope.tree.displayPath owner))
      else
        match target.declaration? declaration.name with
        | none => .error (notOffered scope declaration.name target)
        | some published =>
          if isOffered scope published then .ok (.to target published)
          else .error (notOffered scope declaration.name target)

/-- A declaration and the module that owns it. -/
structure Member where
  owner : Module
  declaration : Declaration
  deriving DecidableEq

namespace Member

/-- The member in the report of a cycle. -/
def describe (member : Member) : String :=
  member.owner.pathText ++ "::" ++ member.declaration.name

/-- A problem of a re-export, reported at its path if that has a place. -/
def problem (member : Member) (cause : Cause) : Problem :=
  ⟨cause, (member.declaration.source.bind (·.span)).or member.declaration.span, member.owner.file⟩

end Member

/-- The re-exports that have not been followed, those that have, and the problems met. -/
structure Progress where
  pending : List DeclarationId
  /-- What each re-export stands for, or that it stands for nothing. -/
  settled : List (DeclarationId × Option Declaration)
  problems : List Problem

namespace Progress

/-- How a re-export was settled. -/
def settled? (progress : Progress) (id : DeclarationId) : Option (Option Declaration) :=
  (progress.settled.find? (·.1 = id)).map (·.2)

/-- Takes a re-export off the pending ones. -/
def start (progress : Progress) (id : DeclarationId) : Progress :=
  { progress with pending := progress.pending.erase id }

/-- Settles a re-export. -/
def settle (progress : Progress) (id : DeclarationId) (origin : Option Declaration) : Progress :=
  { progress with settled := progress.settled ++ [(id, origin)] }

def report (progress : Progress) (problem : Problem) : Progress :=
  { progress with problems := progress.problems ++ [problem] }

/-- Settles a re-export as failed and says why. -/
def fail (progress : Progress) (member : Member) (cause : Cause) : Progress :=
  (progress.report (member.problem cause)).settle member.declaration.id none

end Progress

/-- How following a re-export ends. -/
inductive Outcome where
  | resolved (origin : Declaration)
  | failed
  /-- The chain came back to `head`, whose cycle has been reported. -/
  | looping (head : DeclarationId)

/-- The members of the cycle that ends at `head`, given those that led there, the last one first. -/
def cycleOf (trail : List Member) (head : DeclarationId) : List Member :=
  trail.reverse.dropWhile (·.declaration.id ≠ head)

/-- Reports the cycle that has come back to `repeated`. -/
def closeCycle (trail : List Member) (repeated : Member) (progress : Progress) :
    Outcome × Progress :=
  let cycle := (cycleOf trail repeated.declaration.id ++ [repeated]).map (·.describe)
  (.looping repeated.declaration.id, progress.report (repeated.problem (.circularReexport cycle)))

/-- Settles a re-export by what became of the declaration it leads to. -/
def conclude (scope : Scope) (member : Member) (target : Module) (published : Declaration)
    (outcome : Outcome) (progress : Progress) : Outcome × Progress :=
  let declaration := member.declaration
  match outcome with
  | .resolved origin =>
    if scope.tree.visible published member.owner then
      (.resolved origin, progress.settle declaration.id (some origin))
    else
      let cause := Cause.notVisible (some declaration.name) (scope.tree.displayPath target)
        (scope.tree.displayPath member.owner) (some published.tier)
      (.failed, progress.fail member cause)
  | .failed => (.failed, progress.fail member (notOffered scope declaration.name target))
  | .looping head =>
    (if declaration.id = head then .failed else .looping head, progress.settle declaration.id none)

/-- Follows a re-export. The trail holds the re-exports that led to it, the last one first. -/
def follow (scope : Scope) (trail : List Member) (member : Member) (progress : Progress) :
    Outcome × Progress :=
  let id := member.declaration.id
  match progress.settled? id with
  | some (some origin) => (.resolved origin, progress)
  | some none => (.failed, progress)
  | none =>
    if _h : id ∈ progress.pending then
      match lead scope member.owner member.declaration with
      | .error cause => (.failed, (progress.start id).fail member cause)
      | .ok .itself =>
        (.resolved member.declaration, (progress.start id).settle id (some member.declaration))
      | .ok (.to target published) =>
        let step :=
          if published.isReexport then
            follow scope (member :: trail) ⟨target, published⟩ (progress.start id)
          else (.resolved published, progress.start id)
        conclude scope member target published step.1 step.2
    else closeCycle trail member progress
termination_by progress.pending.length
decreasing_by
  show (progress.pending.erase member.declaration.id).length < progress.pending.length
  rw [List.length_erase_of_mem _h]
  exact Nat.sub_lt (List.length_pos_of_mem _h) Nat.one_pos

/-- The re-exports of a tree, children before the directories they lie in. -/
def members (tree : ModuleTree) : List Member :=
  tree.postorder.flatMap fun directory =>
    directory.listing.flatMap fun owner =>
      (owner.declarations.filter (·.isReexport)).map fun declaration => ⟨owner, declaration⟩

/-- Follows every re-export of a tree. -/
def followAll (scope : Scope) : Progress :=
  let all := members scope.tree
  all.foldl (fun progress member => (follow scope [] member progress).2)
    ⟨all.map (·.declaration.id), [], []⟩

end LetModules.Reexport
