import LetModules.Proofs.Reexport.Origin
import Mathlib.Data.List.Chain

/-!
What is reported about re-exports. A cycle is reported once, by the re-export to which the search
came back; every other re-export that stands for nothing is reported once, with the reason
(`Fails`); nothing is reported about the rest. While re-exports are followed, the reports that have
been made account for those that have been settled as standing for nothing (`Ledger`). Only the
members of a cycle that has just been closed are reported before they are settled, and that is what
tells them from the re-exports that merely lead into the cycle.
-/

namespace LetModules.Reexport

open Relation (ReflTransGen TransGen)

/-- The re-export `n` is the declaration of the same name in the module that the path of `m`
locates, which is another one than that of `m`, and is neither private nor an entry point. -/
def Succeeds (scope : Scope) (m n : Member) : Prop :=
  ∃ path, m.declaration.source = some path ∧ scope.locate path m.owner = .ok n.owner ∧
    n.owner.id ≠ m.owner.id ∧ n.owner.declaration? m.declaration.name = some n.declaration ∧
      n.declaration.tier ≠ .private ∧ scope.pairings.isEntryPoint n.declaration = false ∧
        n.declaration.isReexport = true

theorem next_eq_succeeds (scope : Scope) : Next scope = Succeeds scope := by
  funext m n
  rw [Next, lead_eq_to_iff, Succeeds, eq_iff_iff]
  simp only [isOffered_iff]
  constructor
  · rintro ⟨reexport, path, source, located, elsewhere, published, notPrivate, notEntryPoint⟩
    exact ⟨path, source, located, elsewhere, published, notPrivate, notEntryPoint, reexport⟩
  · rintro ⟨path, source, located, elsewhere, published, notPrivate, notEntryPoint, reexport⟩
    exact ⟨reexport, path, source, located, elsewhere, published, notPrivate, notEntryPoint⟩

/-- Different re-exports, each followed by the next one and the last by the first. -/
structure Cycle (next : Member → Member → Prop) where
  first : Member
  others : List Member
  chain : (first :: (others ++ [first])).IsChain next
  distinct : (first :: others).Nodup
  several : others ≠ []

theorem transGen_of_isChain {next : Member → Member → Prop} : ∀ {members : List Member}
    {m : Member}, (m :: members).IsChain next → ∀ n ∈ members, TransGen next m n
  | [], _, _, _, absent => absurd absent List.not_mem_nil
  | l :: members, m, chain, n, mem => by
    obtain ⟨step, rest⟩ := List.isChain_cons_cons.mp chain
    rcases List.mem_cons.mp mem with rfl | mem
    · exact .single step
    · exact .head step (transGen_of_isChain rest n mem)

namespace Cycle

variable {next : Member → Member → Prop}

/-- The members of a cycle, in order. -/
def members (c : Cycle next) : List Member := c.first :: c.others

/-- The report of a cycle, which names its members and then the first one again. -/
def report (c : Cycle next) : Problem :=
  c.first.problem (.circularReexport ((c.members ++ [c.first]).map (·.describe)))

theorem transGen_of_mem {c : Cycle next} {m : Member} (mem : m ∈ c.members) :
    TransGen next m m := by
  have back := transGen_of_isChain c.chain
  rcases List.mem_cons.mp mem with rfl | mem
  · exact back _ (List.mem_append_right _ (List.mem_singleton.mpr rfl))
  · obtain ⟨before, after, split⟩ := List.append_of_mem mem
    have rest : (m :: (after ++ [c.first])).IsChain next := by
      refine c.chain.suffix ⟨c.first :: before, ?_⟩
      rw [split, List.append_assoc, List.cons_append, List.cons_append]
    have home := transGen_of_isChain rest c.first (by simp)
    exact home.trans (back m (List.mem_append_left _ mem))

end Cycle

/-- Why a re-export that lies on no cycle stands for nothing. -/
inductive Fails (scope : Scope) (m : Member) : Cause → Prop
  /-- It leads nowhere. -/
  | astray {cause : Cause} (error : lead scope m.owner m.declaration = .error cause) :
      Fails scope m cause
  /-- What it leads to stands for nothing. -/
  | empty {target : Module} {e : Declaration}
      (led : lead scope m.owner m.declaration = .ok (.to target e))
      (nothing : ∀ o, ¬ IsOrigin scope e o) :
      Fails scope m (notOffered scope m.declaration.name target)
  /-- It may not see what it leads to. -/
  | hidden {target : Module} {e : Declaration}
      (led : lead scope m.owner m.declaration = .ok (.to target e))
      (invisible : scope.tree.visible e m.owner = false) :
      Fails scope m (.notVisible (some m.declaration.name) (scope.tree.displayPath target)
        (scope.tree.displayPath m.owner) (some e.tier))

/-- A failure is never taken for a cycle. -/
theorem Fails.ne_circularReexport {scope : Scope} {m : Member} {cause : Cause}
    (fails : Fails scope m cause) (cycle : List String) : cause ≠ .circularReexport cycle := by
  rintro rfl
  cases fails with
  | astray error =>
    rw [lead] at error
    split at error
    · exact absurd error (by simp)
    · split at error
      · rename_i failed
        have code := Scope.code_of_locate_eq_error (Except.error.inj error ▸ failed)
        rw [Cause.code] at code
        split at code <;> simp at code
      · split at error
        · exact absurd error (by simp)
        · split at error
          · exact absurd error (by simp [notOffered])
          · split at error
            · exact absurd error (by simp)
            · exact absurd error (by simp [notOffered])

/-- The problems of the re-exports of a tree: one for each cycle, and one with another cause for
each re-export that stands for nothing and lies on no cycle. Nothing else is reported. -/
structure Reports (scope : Scope) (next : Member → Member → Prop) (cycles : List (Cycle next))
    (failures : List (Member × Cause)) : Prop where
  problems : (Exports.ofScope scope).2.Perm
    (cycles.map Cycle.report ++ failures.map fun f => f.1.problem f.2)
  once : (cycles.flatMap Cycle.members ++ failures.map (·.1)).Nodup
  onCycle : ∀ m, m ∈ cycles.flatMap Cycle.members ↔ m.Of scope.tree ∧ TransGen next m m
  offCycle : ∀ m, m ∈ failures.map (·.1) ↔ m.Of scope.tree ∧
    (Exports.ofScope scope).1.originOf m.declaration = none ∧ ¬ TransGen next m m
  lost : ∀ m ∈ cycles.flatMap Cycle.members,
    (Exports.ofScope scope).1.originOf m.declaration = none
  causes : ∀ f ∈ failures, Fails scope f.1 f.2 ∧ ∀ cycle, f.2 ≠ .circularReexport cycle

namespace Progress

/-- The re-exports that have been settled. -/
def done (progress : Progress) : List DeclarationId := progress.settled.map (·.1)

/-- The re-exports that have been settled as standing for nothing. -/
def lost (progress : Progress) : List DeclarationId :=
  (progress.settled.filter (·.2.isNone)).map (·.1)

@[simp] theorem done_start (progress : Progress) (id : DeclarationId) :
    (progress.start id).done = progress.done := rfl

@[simp] theorem done_report (progress : Progress) (problem : Problem) :
    (progress.report problem).done = progress.done := rfl

@[simp] theorem done_settle (progress : Progress) (id : DeclarationId)
    (origin : Option Declaration) :
    (progress.settle id origin).done = progress.done ++ [id] := by
  simp [done, settle]

@[simp] theorem lost_report (progress : Progress) (problem : Problem) :
    (progress.report problem).lost = progress.lost := rfl

@[simp] theorem lost_settle_some (progress : Progress) (id : DeclarationId) (o : Declaration) :
    (progress.settle id (some o)).lost = progress.lost := by
  simp [lost, settle]

@[simp] theorem lost_settle_none (progress : Progress) (id : DeclarationId) :
    (progress.settle id none).lost = progress.lost ++ [id] := by
  simp [lost, settle]

end Progress

/-- The part of a trail to which a chain has come back, down to `head`. -/
def loopOf (head : DeclarationId) : List Member → List Member
  | [] => []
  | m :: trail => if m.declaration.id = head then [m] else m :: loopOf head trail

/-- The members of a reported cycle that are not settled when following ends so. -/
def Outcome.opened (trail : List Member) : Outcome → List Member
  | .looping head => loopOf head trail
  | _ => []

theorem loopOf_append {m : Member} {before : List Member} : ∀ {after : List Member},
    (∀ n ∈ after, n.declaration.id ≠ m.declaration.id) →
      loopOf m.declaration.id (after ++ m :: before) = after ++ [m]
  | [], _ => by simp [loopOf]
  | n :: after, differ => by
    obtain ⟨other, differ⟩ := List.forall_mem_cons.mp differ
    rw [List.cons_append, loopOf, if_neg other, loopOf_append differ, List.cons_append]

/-- The report of a cycle begins with its head and goes up the trail. -/
theorem cycleOf_append {m : Member} {after before : List Member}
    (differ : ∀ n ∈ before, n.declaration.id ≠ m.declaration.id) :
    cycleOf (after ++ m :: before) m.declaration.id = m :: after.reverse := by
  rw [cycleOf, List.reverse_append, List.reverse_cons, List.append_assoc, List.singleton_append,
    List.dropWhile_append_of_pos, List.dropWhile_cons_of_neg]
  · simp
  · exact fun n hn => by simpa using differ n (List.mem_reverse.mp hn)

/-- The reports made so far: those of the cycles and those of the failures. They are about the
re-exports that have been settled as standing for nothing and about the members of a cycle that are
yet to be settled. What a settled re-export leads to is settled too, or one of these members. -/
structure Ledger (scope : Scope) (opened : List Member) (progress : Progress)
    (cycles : List (Cycle (Next scope))) (failures : List (Member × Cause)) : Prop where
  problems : progress.problems.Perm
    (cycles.map Cycle.report ++ failures.map fun f => f.1.problem f.2)
  accounted : (progress.lost ++ opened.map (·.declaration.id)).Perm
    ((cycles.flatMap Cycle.members ++ failures.map (·.1)).map (·.declaration.id))
  known : ∀ m ∈ cycles.flatMap Cycle.members ++ failures.map (·.1), m.Of scope.tree
  fails : ∀ f ∈ failures, Fails scope f.1 f.2 ∧ ¬ TransGen (Next scope) f.1 f.1
  closed : ∀ m : Member, m.Of scope.tree → m.declaration.id ∈ progress.done →
    ∀ n, Next scope m n → n.declaration.id ∈ progress.done ∨ n ∈ opened

variable {scope : Scope} (sound : scope.tree.Sound)

/-- In a trail that has come back to `m`, the part from there on is a cycle. -/
theorem exists_cycle {trail : List Member} {m : Member} {progress : Progress}
    (distinct : (trail.map (·.declaration.id)).Nodup) (way : Way scope trail m)
    (mem : m ∈ trail) : ∃ c : Cycle (Next scope), c.first = m ∧
      c.members.Perm (loopOf m.declaration.id trail) ∧ (∀ n ∈ c.members, n ∈ trail) ∧
        closeCycle trail m progress = (.looping m.declaration.id, progress.report c.report) := by
  obtain ⟨after, before, rfl⟩ := List.append_of_mem mem
  have apart : ∀ n ∈ after, n.declaration.id ≠ m.declaration.id := by
    intro n hn same
    rw [List.map_append, List.nodup_append] at distinct
    exact distinct.2.2 _ (List.mem_map_of_mem hn) _ (List.mem_map_of_mem List.mem_cons_self) same
  have apart' : ∀ n ∈ before, n.declaration.id ≠ m.declaration.id := by
    intro n hn same
    rw [List.map_append, List.nodup_append, List.map_cons, List.nodup_cons] at distinct
    exact distinct.2.1.1 (same ▸ List.mem_map_of_mem hn)
  have chain : (m :: (after.reverse ++ [m])).IsChain (Next scope) := by
    have back : (m :: (after ++ [m])).IsChain fun later earlier => Next scope earlier later :=
      way.prefix ⟨before, by simp⟩
    have turned := List.isChain_reverse.mpr back
    simpa using turned
  have several : after.reverse ≠ [] := by
    intro alone
    rw [alone] at chain
    obtain ⟨-, -, -, elsewhere, -⟩ := lead_eq_to_iff.mp (List.isChain_cons_cons.mp chain).1.2
    exact elsewhere rfl
  have different : (m :: after.reverse).Nodup := by
    refine List.Nodup.of_map (·.declaration.id) ?_
    have turned : ((m :: after.reverse).map (·.declaration.id)).Perm
        ((after ++ [m]).map (·.declaration.id)) :=
      ((after.reverse_perm.cons m).trans (List.perm_append_singleton m after).symm).map _
    refine turned.nodup_iff.mpr (distinct.sublist (List.Sublist.map _ ?_))
    exact (List.singleton_sublist.mpr List.mem_cons_self).append_left after
  refine ⟨⟨m, after.reverse, chain, different, several⟩, rfl, ?_, fun n hn => ?_, ?_⟩
  · rw [loopOf_append apart, Cycle.members]
    exact (after.reverse_perm.cons m).trans (List.perm_append_singleton m after).symm
  · rcases List.mem_cons.mp hn with rfl | hn
    · exact mem
    · exact List.mem_append_left _ (List.mem_reverse.mp hn)
  · rw [closeCycle, cycleOf_append apart']
    rfl

namespace Ledger

variable {opened : List Member} {progress : Progress} {cycles : List (Cycle (Next scope))}
  {failures : List (Member × Cause)} {m : Member}

theorem start (ledger : Ledger scope opened progress cycles failures) (id : DeclarationId) :
    Ledger scope opened (progress.start id) cycles failures :=
  ⟨ledger.problems, ledger.accounted, ledger.known, ledger.fails, ledger.closed⟩

/-- Closing a cycle reports it, and leaves its members to be settled. -/
theorem close (ledger : Ledger scope [] progress cycles failures) {c : Cycle (Next scope)}
    (known : ∀ n ∈ c.members, n.Of scope.tree) (turn : c.members.Perm opened) :
    Ledger scope opened (progress.report c.report) (cycles ++ [c]) failures where
  problems := by
    rw [List.map_append, List.map_singleton, List.append_assoc]
    refine (ledger.problems.append_right _).trans ?_
    rw [List.append_assoc]
    exact List.perm_append_comm.append_left _
  accounted := by
    have before := ledger.accounted
    rw [List.map_nil, List.append_nil] at before
    rw [Progress.lost_report, List.flatMap_append, List.flatMap_singleton]
    refine (before.append (turn.symm.map _)).trans ?_
    rw [← List.map_append, List.append_assoc, List.append_assoc]
    exact (List.perm_append_comm.append_left _).map _
  known := by
    intro n hn
    rw [List.flatMap_append, List.flatMap_singleton, List.mem_append, List.mem_append] at hn
    rcases hn with (hn | hn) | hn
    · exact ledger.known n (List.mem_append_left _ hn)
    · exact known n hn
    · exact ledger.known n (List.mem_append_right _ hn)
  fails := ledger.fails
  closed := by
    intro n hn done n' next
    exact (ledger.closed n hn done n' next).imp_right fun absent => absurd absent List.not_mem_nil

include sound

/-- When a re-export is settled, what settled ones lead to stays accounted for. -/
theorem closed_settle {opened' : List Member}
    (ledger : Ledger scope opened progress cycles failures) (hm : m.Of scope.tree)
    (leaves : ∀ n ∈ opened, n = m ∨ n ∈ opened')
    (next : ∀ n, Next scope m n → n.declaration.id ∈ progress.done ∨ n ∈ opened)
    {origin : Option Declaration} : ∀ n : Member, n.Of scope.tree →
      n.declaration.id ∈ (progress.settle m.declaration.id origin).done → ∀ n', Next scope n n' →
        n'.declaration.id ∈ (progress.settle m.declaration.id origin).done ∨ n' ∈ opened' := by
  have widen : ∀ n', (n'.declaration.id ∈ progress.done ∨ n' ∈ opened) →
      n'.declaration.id ∈ (progress.settle m.declaration.id origin).done ∨ n' ∈ opened' := by
    rintro n' (done | mem)
    · exact .inl (by simp [done])
    · exact (leaves n' mem).imp_left (by rintro rfl; simp)
  intro n hn done n' there
  rw [Progress.done_settle, List.mem_append, List.mem_singleton] at done
  rcases done with done | same
  · exact widen n' (ledger.closed n hn done n' there)
  · obtain rfl := Member.Of.inj sound hn hm same
    exact widen n' (next n' there)

theorem resolve (ledger : Ledger scope [] progress cycles failures) (hm : m.Of scope.tree)
    (next : ∀ n, Next scope m n → n.declaration.id ∈ progress.done) (o : Declaration) :
    Ledger scope [] (progress.settle m.declaration.id (some o)) cycles failures where
  problems := ledger.problems
  accounted := by simpa using ledger.accounted
  known := ledger.known
  fails := ledger.fails
  closed := ledger.closed_settle sound hm (fun _ absent => .inr absent) fun n there =>
    .inl (next n there)

theorem fail (ledger : Ledger scope [] progress cycles failures) (hm : m.Of scope.tree)
    (next : ∀ n, Next scope m n → n.declaration.id ∈ progress.done) {cause : Cause}
    (fails : Fails scope m cause) (offCycle : ¬ TransGen (Next scope) m m) :
    Ledger scope [] (progress.fail m cause) cycles (failures ++ [(m, cause)]) where
  problems := by
    rw [List.map_append, List.map_singleton, ← List.append_assoc]
    exact ledger.problems.append_right _
  accounted := by
    have before := ledger.accounted.append_right [m.declaration.id]
    rw [Progress.fail, Progress.lost_settle_none]
    simpa using before
  known := by
    rw [List.map_append, List.map_singleton, ← List.append_assoc]
    exact List.forall_mem_append.mpr ⟨ledger.known, List.forall_mem_singleton.mpr hm⟩
  fails :=
    List.forall_mem_append.mpr ⟨ledger.fails, List.forall_mem_singleton.mpr ⟨fails, offCycle⟩⟩
  closed := ledger.closed_settle sound hm (fun _ absent => .inr absent) fun n there =>
    .inl (next n there)

/-- A member of a reported cycle is settled without a report of its own. -/
theorem settle (ledger : Ledger scope (m :: opened) progress cycles failures)
    (hm : m.Of scope.tree)
    (next : ∀ n, Next scope m n → n.declaration.id ∈ progress.done ∨ n ∈ m :: opened) :
    Ledger scope opened (progress.settle m.declaration.id none) cycles failures where
  problems := ledger.problems
  accounted := by simpa using ledger.accounted
  known := ledger.known
  fails := ledger.fails
  closed := ledger.closed_settle sound hm (fun _ mem => List.mem_cons.mp mem) next

/-- All that a settled re-export leads to has been settled, unless a cycle is open. -/
theorem mem_done_of_reaches (ledger : Ledger scope [] progress cycles failures) {n : Member}
    (hm : m.Of scope.tree) (done : m.declaration.id ∈ progress.done)
    (reaches : ReflTransGen (Next scope) m n) : n.declaration.id ∈ progress.done := by
  have both : n.Of scope.tree ∧ n.declaration.id ∈ progress.done := by
    induction reaches with
    | refl => exact ⟨hm, done⟩
    | tail _ next ih =>
      exact ⟨next.of sound, (ledger.closed _ ih.1 ih.2 _ next).resolve_right List.not_mem_nil⟩
  exact both.2

end Ledger

include sound

/-- A re-export on the trail has not been settled. -/
theorem Valid.not_mem_done {trail : List Member} {progress : Progress} {m : Member}
    (valid : Valid scope trail progress) (mem : m ∈ trail) :
    m.declaration.id ∉ progress.done := by
  have distinct := valid.partition.nodup_iff.mpr sound.nodup_members
  have apart := (List.nodup_append.mp (List.nodup_append.mp distinct).2.1).2.2
  exact fun done => apart _ done _ (List.mem_map_of_mem mem) rfl

omit sound in
/-- What following `m` reports: the reports account for what is settled afterwards, and `m` is
settled, or a member of a cycle that has been closed. -/
structure Reported (scope : Scope) (trail : List Member) (m : Member)
    (followed : Outcome × Progress) : Prop where
  ledger : ∃ cycles failures, Ledger scope (followed.1.opened trail) followed.2 cycles failures
  done : m.declaration.id ∈ followed.2.done ∨ m ∈ followed.1.opened trail

/-- A re-export that leads to what stands for something is settled, or reported if it may not see
that. -/
theorem Ledger.reported_of_resolved {trail : List Member} {m : Member} {progress : Progress}
    {cycles : List (Cycle (Next scope))} {failures : List (Member × Cause)}
    (ledger : Ledger scope [] progress cycles failures) (hm : m.Of scope.tree) {target : Module}
    {e : Declaration} (led : lead scope m.owner m.declaration = .ok (.to target e))
    (next : ∀ n, Next scope m n → n.declaration.id ∈ progress.done)
    (offCycle : ¬ TransGen (Next scope) m m) (o : Declaration) :
    Reported scope trail m (conclude scope m target e (.resolved o) progress) := by
  rw [conclude]
  split
  · exact ⟨⟨cycles, failures, ledger.resolve sound hm next o⟩, .inl (by simp)⟩
  · rename_i hidden
    have fails := Fails.hidden led (Bool.eq_false_of_not_eq_true hidden)
    exact ⟨⟨cycles, _, ledger.fail sound hm next fails offCycle⟩, .inl (by simp [Progress.fail])⟩

/-- A re-export that is concluded is reported as failed only if it lies on no cycle. -/
theorem Reported.concluded {trail : List Member} {m : Member} {target : Module} {e : Declaration}
    {progress : Progress} {followed : Outcome × Progress} (hm : m.Of scope.tree)
    (led : lead scope m.owner m.declaration = .ok (.to target e)) (reexport : e.isReexport = true)
    (after : Followed scope (m :: trail) ⟨target, e⟩ progress followed)
    (reported : Reported scope (m :: trail) ⟨target, e⟩ followed) :
    Reported scope trail m (conclude scope m target e followed.1 followed.2) := by
  obtain ⟨outcome, left⟩ := followed
  have next : Next scope m ⟨target, e⟩ := ⟨reexport, led⟩
  have only : ∀ n, Next scope m n → n = ⟨target, e⟩ := fun n there => there.unique next
  obtain ⟨⟨cycles, failures, ledger⟩, done⟩ := reported
  cases outcome with
  | resolved o =>
    have done : e.id ∈ left.done := done.resolve_right List.not_mem_nil
    have means : IsOrigin scope e o := after.means
    have offCycle : ¬ TransGen (Next scope) m m := by
      intro cycle
      obtain ⟨n, there, back⟩ := TransGen.head'_iff.mp cycle
      obtain rfl := only n there
      exact not_isOrigin_of_cycle sound (next.of sound) (TransGen.tail' back next) o means
    exact ledger.reported_of_resolved sound hm led (fun n there => only n there ▸ done) offCycle o
  | failed =>
    have done : e.id ∈ left.done := done.resolve_right List.not_mem_nil
    have nothing : ∀ o, ¬ IsOrigin scope e o := after.means
    have offCycle : ¬ TransGen (Next scope) m m := by
      -- what comes behind `m` is settled, but `m` is not
      intro cycle
      obtain ⟨n, there, back⟩ := TransGen.head'_iff.mp cycle
      obtain rfl := only n there
      exact after.valid.not_mem_done sound List.mem_cons_self
        (ledger.mem_done_of_reaches sound (next.of sound) done back)
    refine ⟨⟨cycles, _, ledger.fail sound hm (fun n there => ?_) (.empty led nothing) offCycle⟩,
      .inl (by simp [conclude, Progress.fail])⟩
    exact only n there ▸ done
  | looping head =>
    have account : ∀ n, Next scope m n →
        n.declaration.id ∈ left.done ∨ n ∈ loopOf head (m :: trail) :=
      fun n there => only n there ▸ done
    rw [conclude]
    dsimp only [Outcome.opened] at ledger ⊢
    rw [loopOf] at ledger account
    split
    · -- `m` is where the cycle began
      rename_i here
      rw [if_pos here] at ledger account
      exact ⟨⟨cycles, failures, ledger.settle sound hm account⟩, .inl (by simp)⟩
    · rename_i further
      rw [if_neg further] at ledger account
      exact ⟨⟨cycles, failures, ledger.settle sound hm account⟩, .inl (by simp)⟩

/-- Following a re-export keeps the reports in account. -/
theorem Follows.reported {trail : List Member} {m : Member} {progress : Progress}
    {followed : Outcome × Progress} (follows : Follows scope trail m progress followed)
    (hm : m.Of scope.tree) (valid : Valid scope trail progress) (way : Way scope trail m)
    {cycles : List (Cycle (Next scope))} {failures : List (Member × Cause)}
    (ledger : Ledger scope [] progress cycles failures) : Reported scope trail m followed := by
  have settled_done : ∀ {m : Member} {progress : Progress} {origin},
      progress.settled? m.declaration.id = some origin → m.declaration.id ∈ progress.done := by
    intro m progress origin settled
    obtain ⟨entry, found, -⟩ := Option.map_eq_some_iff.mp settled
    exact List.mem_map.mpr ⟨entry, List.mem_of_find?_eq_some found, by
      simpa using List.find?_some found⟩
  have offCycle : ∀ {m : Member}, (∀ n, ¬ Next scope m n) → ¬ TransGen (Next scope) m m := by
    intro m nowhere cycle
    obtain ⟨n, there, -⟩ := TransGen.head'_iff.mp cycle
    exact nowhere n there
  induction follows with
  | known settled => exact ⟨⟨cycles, failures, ledger⟩, .inl (settled_done settled)⟩
  | lost settled => exact ⟨⟨cycles, failures, ledger⟩, .inl (settled_done settled)⟩
  | @again trail m progress unsettled started =>
    have mem := valid.mem_trail sound hm unsettled started
    have distinct : (trail.map (·.declaration.id)).Nodup :=
      (List.nodup_append.mp (List.nodup_append.mp
        (valid.partition.nodup_iff.mpr sound.nodup_members)).2.1).2.1
    obtain ⟨c, rfl, turn, onTrail, closes⟩ := exists_cycle distinct way mem
    rw [closes]
    exact ⟨⟨_, _, ledger.close (fun n hn => valid.trail n (onTrail n hn)) turn⟩,
      .inr (turn.mem_iff.mp List.mem_cons_self)⟩
  | @astray trail m progress cause pending error =>
    have nowhere : ∀ n, ¬ Next scope m n := by
      rintro n ⟨-, led⟩
      rw [error] at led
      exact absurd led (by simp)
    refine ⟨⟨cycles, _, (ledger.start _).fail sound hm (fun n there => absurd there (nowhere n))
      (.astray error) (offCycle nowhere)⟩, .inl (by simp [Progress.fail])⟩
  | itself pending itself =>
    refine ⟨⟨cycles, failures, (ledger.start _).resolve sound hm ?_ _⟩, .inl (by simp)⟩
    rintro n ⟨-, led⟩
    rw [itself] at led
    exact absurd led (by simp)
  | @concrete trail m progress target e pending led concrete =>
    have nowhere : ∀ n, ¬ Next scope m n := by
      rintro n ⟨reexport, led'⟩
      obtain ⟨-, rfl⟩ := Lead.to.inj (Except.ok.inj (led.symm.trans led'))
      exact concrete reexport
    exact (ledger.start _).reported_of_resolved sound hm led
      (fun n there => absurd there (nowhere n)) (offCycle nowhere) e
  | onward pending led reexport behind ih =>
    have next : Next scope _ ⟨_, _⟩ := ⟨reexport, led⟩
    have started := valid.start hm pending
    have way' : Way scope _ _ := List.isChain_cons_cons.mpr ⟨next, way⟩
    exact Reported.concluded sound hm led reexport
      (behind.followed sound (next.of sound) started way')
      (ih (next.of sound) started way' (ledger.start _))

/-- Following all re-exports settles each of them, settles it right, and keeps the reports in
account. -/
theorem exists_ledger_followAll : ∃ cycles failures,
    Ledger scope [] (followAll scope) cycles failures := by
  have run : ∀ (rest : List Member) (progress : Progress), (∀ m ∈ rest, m.Of scope.tree) →
      Valid scope [] progress → (∃ cycles failures, Ledger scope [] progress cycles failures) →
        let last := rest.foldl (fun progress member => (follow scope [] member progress).2) progress
        ∃ cycles failures, Ledger scope [] last cycles failures := by
    intro rest
    induction rest with
    | nil => exact fun _ _ _ account => account
    | cons m rest ih =>
      rintro progress all valid ⟨cycles, failures, ledger⟩
      obtain ⟨hm, others⟩ := List.forall_mem_cons.mp all
      have follows := follows_follow scope [] m progress
      have way : Way scope [] m := List.IsChain.singleton m
      have account := (follows.reported sound hm valid way ledger).ledger
      have closed : (follow scope [] m progress).1.opened [] = [] := by
        cases (follow scope [] m progress).1 <;> rfl
      rw [closed] at account
      exact ih _ others (follows.followed sound hm valid way).valid account
  refine run (members scope.tree) _ (fun m mem => sound.mem_members.mp mem)
    ⟨by simp [ids], fun _ absent => absurd absent List.not_mem_nil,
      fun _ _ _ absent => absurd absent List.not_mem_nil⟩ ⟨[], [], ?_⟩
  exact ⟨.refl _, .refl _, fun _ absent => absurd absent List.not_mem_nil,
    fun _ absent => absurd absent List.not_mem_nil,
    fun _ _ absent => absurd absent List.not_mem_nil⟩

/-- The re-exports settled as lost are those that stand for nothing. -/
theorem mem_lost_followAll_iff {m : Member} (hm : m.Of scope.tree) :
    m.declaration.id ∈ (followAll scope).lost ↔
      (Exports.ofScope scope).1.originOf m.declaration = none := by
  obtain ⟨-, settled, right⟩ := settles_followIn sound (List.Perm.refl _)
  have origin := fun o => sound.originOf_eq_some_iff (hm.mem sound) (o := o)
  rw [Option.eq_none_iff_forall_not_mem]
  simp only [Option.mem_def, origin]
  constructor
  · intro lost o
    obtain ⟨⟨id, found⟩, mem, rfl⟩ := List.mem_map.mp lost
    obtain ⟨mem, failed⟩ := List.mem_filter.mp mem
    obtain rfl : found = none := Option.isNone_iff_eq_none.mp failed
    exact fun means => absurd ((right m hm none mem o).mpr means) (by simp)
  · intro nothing
    have done := settled.mem_iff.mpr (List.mem_map_of_mem (sound.mem_members.mpr hm))
    obtain ⟨⟨id, found⟩, mem, rfl⟩ := List.mem_map.mp done
    refine List.mem_map.mpr ⟨_, List.mem_filter.mpr ⟨mem, ?_⟩, rfl⟩
    refine Option.isNone_iff_eq_none.mpr (Option.eq_none_iff_forall_not_mem.mpr fun o means => ?_)
    exact nothing o ((right m hm found mem o).mp means)

/-- When all is settled, the account names every re-export that stands for nothing. -/
theorem Ledger.reports {cycles : List (Cycle (Next scope))} {failures : List (Member × Cause)}
    (ledger : Ledger scope [] (followAll scope) cycles failures) :
    Reports scope (Next scope) cycles failures := by
  have accounted := ledger.accounted
  rw [List.map_nil, List.append_nil] at accounted
  have distinct : (followAll scope).lost.Nodup := by
    obtain ⟨-, settled, -⟩ := settles_followIn sound (List.Perm.refl _)
    exact (settled.nodup_iff.mpr sound.nodup_members).sublist (List.filter_sublist.map _)
  have once := List.Nodup.of_map _ (accounted.nodup_iff.mp distinct)
  have named : ∀ m, m ∈ cycles.flatMap Cycle.members ++ failures.map (·.1) ↔ m.Of scope.tree ∧
      (Exports.ofScope scope).1.originOf m.declaration = none := by
    intro m
    constructor
    · intro mem
      have hm := ledger.known m mem
      exact ⟨hm, (mem_lost_followAll_iff sound hm).mp
        (accounted.mem_iff.mpr (List.mem_map_of_mem mem))⟩
    · rintro ⟨hm, nothing⟩
      have lost := (mem_lost_followAll_iff sound hm).mpr nothing
      obtain ⟨n, mem, same⟩ := List.mem_map.mp (accounted.mem_iff.mp lost)
      exact Member.Of.inj sound (ledger.known n mem) hm same ▸ mem
  have offCycle : ∀ m ∈ failures.map (·.1), ¬ TransGen (Next scope) m m := by
    intro m mem
    obtain ⟨f, failed, rfl⟩ := List.mem_map.mp mem
    exact (ledger.fails f failed).2
  have onCycle : ∀ m ∈ cycles.flatMap Cycle.members, TransGen (Next scope) m m := by
    intro m mem
    obtain ⟨c, -, mem⟩ := List.mem_flatMap.mp mem
    exact Cycle.transGen_of_mem mem
  have lost : ∀ m : Member, m.Of scope.tree → TransGen (Next scope) m m →
      (Exports.ofScope scope).1.originOf m.declaration = none := by
    intro m hm cycle
    refine Option.eq_none_iff_forall_not_mem.mpr fun o means => ?_
    exact not_isOrigin_of_cycle sound hm cycle o
      ((sound.originOf_eq_some_iff (hm.mem sound)).mp means)
  refine ⟨ledger.problems, once, fun m => ⟨fun mem => ?_, ?_⟩, fun m => ⟨fun mem => ?_, ?_⟩,
    fun m mem => ((named m).mp (List.mem_append_left _ mem)).2, fun f mem => ?_⟩
  · exact ⟨ledger.known m (List.mem_append_left _ mem), onCycle m mem⟩
  · rintro ⟨hm, cycle⟩
    exact (List.mem_append.mp ((named m).mpr ⟨hm, lost m hm cycle⟩)).resolve_right
      fun mem => offCycle m mem cycle
  · obtain ⟨hm, nothing⟩ := (named m).mp (List.mem_append_right _ mem)
    exact ⟨hm, nothing, offCycle m mem⟩
  · rintro ⟨hm, nothing, apart⟩
    exact (List.mem_append.mp ((named m).mpr ⟨hm, nothing⟩)).resolve_left
      fun mem => apart (onCycle m mem)
  · exact ⟨(ledger.fails f mem).1, (ledger.fails f mem).1.ne_circularReexport⟩

/-- Nothing is reported about re-exports if all of them stand for something. -/
theorem problems_ofScope_eq_nil_iff : (Exports.ofScope scope).2 = [] ↔
    ∀ m : Member, m.Of scope.tree → (Exports.ofScope scope).1.originOf m.declaration ≠ none := by
  obtain ⟨cycles, failures, ledger⟩ := exists_ledger_followAll sound
  have reports := ledger.reports sound
  rw [← List.perm_nil, reports.problems.congr_left, List.perm_nil, List.append_eq_nil_iff,
    List.map_eq_nil_iff, List.map_eq_nil_iff]
  constructor
  · rintro ⟨rfl, rfl⟩ m hm lost
    by_cases cyclic : TransGen (Next scope) m m
    · exact absurd ((reports.onCycle m).mpr ⟨hm, cyclic⟩) List.not_mem_nil
    · exact absurd ((reports.offCycle m).mpr ⟨hm, lost, cyclic⟩) List.not_mem_nil
  · intro means
    refine ⟨List.eq_nil_iff_forall_not_mem.mpr fun c mem => ?_,
      List.eq_nil_iff_forall_not_mem.mpr fun f mem => ?_⟩
    · have listed : c.first ∈ cycles.flatMap Cycle.members :=
        List.mem_flatMap.mpr ⟨c, mem, List.mem_cons_self⟩
      exact means _ ((reports.onCycle _).mp listed).1 (reports.lost _ listed)
    · obtain ⟨hm, lost, -⟩ := (reports.offCycle f.1).mp (List.mem_map_of_mem mem)
      exact means _ hm lost

omit sound in
/-- In every tree that grows from packages, with any pairings and any registry, each cycle of
re-exports is reported once, with its members in order, each other re-export that stands for nothing
is reported once, with another cause, and nothing else is reported. -/
theorem reports_once (sources : List PackageSource) (registry : Registry) (pairings : Pairings) :
    let scope : Scope := ⟨(Growth.ofSources sources).tree, registry, pairings⟩
    ∃ cycles failures, Reports scope (Succeeds scope) cycles failures := by
  intro scope
  have sound : scope.tree.Sound := Growth.sound_ofSources sources
  obtain ⟨cycles, failures, ledger⟩ := exists_ledger_followAll sound
  rw [← next_eq_succeeds]
  exact ⟨cycles, failures, ledger.reports sound⟩

end LetModules.Reexport
