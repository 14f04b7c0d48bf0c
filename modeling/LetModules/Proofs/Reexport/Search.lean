import LetModules.Proofs.Reexport.Chain
import LetModules.Proofs.Tree.Postorder

/-!
The search for origins. While re-exports are followed, each is pending, settled or on the trail
(`Valid`); what is settled is right, and the trail is a way to the re-export that is being followed.
When a chain comes back to its trail, everything from there on lies on a cycle and has no origin, so
settling it as failed is right as well. Every order of following settles every re-export
(`settles_followIn`).
-/

namespace LetModules

namespace ModuleTree.Sound

variable {tree : ModuleTree} (sound : tree.Sound)

include sound

/-- The re-exports that are followed are all that the tree declares. -/
theorem members_perm : ((Reexport.members tree).map (·.declaration)).Perm
    (tree.declarations.filter (·.isReexport)) := by
  have ofOwner : ∀ owner : Module,
      ((owner.declarations.filter (·.isReexport)).map fun e => (⟨owner, e⟩ : Reexport.Member)).map
        (·.declaration) = owner.declarations.filter (·.isReexport) := by
    intro owner
    rw [List.map_map]
    exact List.map_id _
  rw [Reexport.members, List.map_flatMap, sound.declarations, Directory.declarationsOf,
    Directory.modulesOf, List.filter_flatMap, List.flatMap_assoc]
  simp only [List.map_flatMap, ofOwner]
  refine (sound.postorder_perm.flatMap_right _).trans (List.Perm.flatMap_left _ fun d hd => ?_)
  exact (Directory.listing_perm (sound.distinct d hd)).flatMap_right _

theorem nodup_members : ((Reexport.members tree).map (·.declaration.id)).Nodup := by
  have ids : (tree.declarations.map (·.id)).Nodup := by
    refine List.Nodup.of_map (·.index) ?_
    rw [List.map_map]
    exact sound.numbered_declarations.nodup
  have perm := sound.members_perm.map (·.id)
  rw [List.map_map] at perm
  exact perm.nodup_iff.mpr (ids.sublist (List.filter_sublist.map _))

theorem mem_members {m : Reexport.Member} : m ∈ Reexport.members tree ↔ m.Of tree := by
  rw [Reexport.members, List.mem_flatMap]
  simp only [List.mem_flatMap, List.mem_map, List.mem_filter]
  constructor
  · rintro ⟨d, hd, owner, ho, e, ⟨he, reexport⟩, rfl⟩
    have there := sound.postorder_perm.mem_iff.mp hd
    have listed := (Directory.listing_perm (sound.distinct d there)).mem_iff.mp ho
    exact ⟨sound.mem_modules.mpr ⟨d, there, listed⟩, he, reexport⟩
  · rintro ⟨owner, declared, reexport⟩
    obtain ⟨d, hd, ho⟩ := sound.mem_modules.mp owner
    exact ⟨d, sound.postorder_perm.mem_iff.mpr hd, m.owner,
      (Directory.listing_perm (sound.distinct d hd)).mem_iff.mpr ho, m.declaration,
      ⟨declared, reexport⟩, rfl⟩

end ModuleTree.Sound

namespace Reexport

open Relation (ReflTransGen TransGen)

/-- The ids of all re-exports of a tree. -/
def ids (tree : ModuleTree) : List DeclarationId := (members tree).map (·.declaration.id)

/-- The ways in which following a re-export goes. -/
inductive Follows (scope : Scope) : List Member → Member → Progress → Outcome × Progress → Prop
  /-- It has been settled, and stands for `o`. -/
  | known {trail : List Member} {m : Member} {progress : Progress} {o : Declaration}
      (settled : progress.settled? m.declaration.id = some (some o)) :
      Follows scope trail m progress (.resolved o, progress)
  /-- It has been settled, and stands for nothing. -/
  | lost {trail : List Member} {m : Member} {progress : Progress}
      (settled : progress.settled? m.declaration.id = some none) :
      Follows scope trail m progress (.failed, progress)
  /-- It has been started but not settled, so the chain has come back to it. -/
  | again {trail : List Member} {m : Member} {progress : Progress}
      (unsettled : progress.settled? m.declaration.id = none)
      (started : m.declaration.id ∉ progress.pending) :
      Follows scope trail m progress (closeCycle trail m progress)
  /-- It leads nowhere. -/
  | astray {trail : List Member} {m : Member} {progress : Progress} {cause : Cause}
      (pending : m.declaration.id ∈ progress.pending)
      (error : lead scope m.owner m.declaration = .error cause) :
      Follows scope trail m progress (.failed, (progress.start m.declaration.id).fail m cause)
  /-- It has no path. -/
  | itself {trail : List Member} {m : Member} {progress : Progress}
      (pending : m.declaration.id ∈ progress.pending)
      (itself : lead scope m.owner m.declaration = .ok .itself) :
      Follows scope trail m progress (.resolved m.declaration,
        (progress.start m.declaration.id).settle m.declaration.id (some m.declaration))
  /-- It leads to a declaration that republishes nothing. -/
  | concrete {trail : List Member} {m : Member} {progress : Progress} {target : Module}
      {e : Declaration} (pending : m.declaration.id ∈ progress.pending)
      (led : lead scope m.owner m.declaration = .ok (.to target e))
      (concrete : e.isReexport ≠ true) :
      Follows scope trail m progress
        (conclude scope m target e (.resolved e) (progress.start m.declaration.id))
  /-- It leads to another re-export, which is followed first. -/
  | onward {trail : List Member} {m : Member} {progress : Progress} {target : Module}
      {e : Declaration} {followed : Outcome × Progress}
      (pending : m.declaration.id ∈ progress.pending)
      (led : lead scope m.owner m.declaration = .ok (.to target e))
      (reexport : e.isReexport = true)
      (behind : Follows scope (m :: trail) ⟨target, e⟩ (progress.start m.declaration.id) followed) :
      Follows scope trail m progress (conclude scope m target e followed.1 followed.2)

theorem follows_follow (scope : Scope) (trail : List Member) (m : Member) (progress : Progress) :
    Follows scope trail m progress (follow scope trail m progress) := by
  induction trail, m, progress using follow.induct scope with
  | case1 trail m progress id o settled =>
    rw [follow, settled]
    exact .known settled
  | case2 trail m progress id settled =>
    rw [follow, settled]
    exact .lost settled
  | case3 trail m progress id unsettled pending cause error =>
    rw [follow, unsettled]
    dsimp only
    rw [dif_pos pending, error]
    exact .astray pending error
  | case4 trail m progress id unsettled pending itself =>
    rw [follow, unsettled]
    dsimp only
    rw [dif_pos pending, itself]
    exact .itself pending itself
  | case5 trail m progress id unsettled pending target e led ih =>
    rw [follow, unsettled]
    dsimp only
    rw [dif_pos pending, led]
    dsimp only
    split
    · exact .onward pending led ‹_› ih
    · exact .concrete pending led ‹_›
  | case6 trail m progress id unsettled started =>
    rw [follow, unsettled]
    dsimp only
    rw [dif_neg started]
    exact .again unsettled started

/-- What is known while re-exports are followed: each is pending, settled or on the trail, and what
is settled is right. -/
structure Valid (scope : Scope) (trail : List Member) (progress : Progress) : Prop where
  partition : (progress.pending ++ (progress.settled.map (·.1) ++
    trail.map (·.declaration.id))).Perm (ids scope.tree)
  trail : ∀ m ∈ trail, m.Of scope.tree
  right : ∀ m : Member, m.Of scope.tree → ∀ origin, (m.declaration.id, origin) ∈ progress.settled →
    ∀ o, origin = some o ↔ IsOrigin scope m.declaration o

/-- The trail is a way to `m`, the last step first. -/
def Way (scope : Scope) (trail : List Member) (m : Member) : Prop :=
  List.IsChain (fun later earlier => Next scope earlier later) (m :: trail)

/-- What the outcome of following `m` says. -/
def Outcome.Means (scope : Scope) (trail : List Member) (m : Member) : Outcome → Prop
  | .resolved origin => IsOrigin scope m.declaration origin
  | .failed => ∀ o, ¬ IsOrigin scope m.declaration o
  | .looping head => ∃ n ∈ trail, n.declaration.id = head ∧ ReflTransGen (Next scope) m n

/-- Whatever is on the trail leads to `m`. -/
theorem Way.reaches {scope : Scope} : ∀ {trail : List Member} {m : Member}, Way scope trail m →
    ∀ n ∈ trail, TransGen (Next scope) n m
  | [], _, _, _, absent => absurd absent List.not_mem_nil
  | l :: trail, m, way, n, mem => by
    obtain ⟨last, rest⟩ := List.isChain_cons_cons.mp way
    rcases List.mem_cons.mp mem with rfl | mem
    · exact .single last
    · exact (Way.reaches rest n mem).tail last

namespace Valid

variable {scope : Scope} {trail : List Member} {m : Member} {progress : Progress}

theorem report (valid : Valid scope trail progress) (problem : Problem) :
    Valid scope trail (progress.report problem) :=
  ⟨valid.partition, valid.trail, valid.right⟩

/-- A re-export that is started moves from the pending ones to the trail. -/
theorem start (valid : Valid scope trail progress) (hm : m.Of scope.tree)
    (pending : m.declaration.id ∈ progress.pending) :
    Valid scope (m :: trail) (progress.start m.declaration.id) where
  partition := by
    refine List.Perm.trans ?_ valid.partition
    have moved := (List.perm_cons_erase pending).append_right
      (progress.settled.map (·.1) ++ trail.map (·.declaration.id))
    refine List.Perm.trans ?_ moved.symm
    rw [Progress.start, List.map_cons, List.cons_append]
    refine (List.perm_middle.append_left _).trans ?_
    exact List.perm_middle
  trail := List.forall_mem_cons.mpr ⟨hm, valid.trail⟩
  right := valid.right

variable (sound : scope.tree.Sound)

include sound

/-- A re-export that is settled leaves the trail. -/
theorem settle (valid : Valid scope (m :: trail) progress) {origin : Option Declaration}
    (right : ∀ o, origin = some o ↔ IsOrigin scope m.declaration o) :
    Valid scope trail (progress.settle m.declaration.id origin) where
  partition := by
    refine List.Perm.trans ?_ valid.partition
    rw [Progress.settle, List.map_append, List.map_singleton, List.map_cons, List.append_assoc,
      List.singleton_append]
  trail := (List.forall_mem_cons.mp valid.trail).2
  right := by
    intro n hn origin' mem
    rcases List.mem_append.mp mem with mem | mem
    · exact valid.right n hn origin' mem
    · obtain ⟨same, rfl⟩ := Prod.mk.injEq .. ▸ List.mem_singleton.mp mem
      obtain rfl := Member.Of.inj sound hn (List.forall_mem_cons.mp valid.trail).1 same
      exact right

theorem fail (valid : Valid scope (m :: trail) progress) (cause : Cause)
    (right : ∀ o, ¬ IsOrigin scope m.declaration o) :
    Valid scope trail (progress.fail m cause) :=
  (valid.report _).settle sound fun o => by simp [right o]

/-- A re-export that is neither pending nor settled is on the trail. -/
theorem mem_trail (valid : Valid scope trail progress) (hm : m.Of scope.tree)
    (unsettled : progress.settled? m.declaration.id = none)
    (started : m.declaration.id ∉ progress.pending) : m ∈ trail := by
  have known : m.declaration.id ∈ ids scope.tree :=
    List.mem_map_of_mem (sound.mem_members.mpr hm)
  rcases List.mem_append.mp (valid.partition.mem_iff.mpr known) with pending | known
  · exact absurd pending started
  rcases List.mem_append.mp known with settled | onTrail
  · obtain ⟨entry, mem, same⟩ := List.mem_map.mp settled
    rw [Progress.settled?, Option.map_eq_none_iff, List.find?_eq_none] at unsettled
    exact absurd same (by simpa using unsettled entry mem)
  · obtain ⟨n, mem, same⟩ := List.mem_map.mp onTrail
    exact Member.Of.inj sound (valid.trail n mem) hm same ▸ mem

/-- Settling by what became of the declaration that a re-export leads to keeps all right. -/
theorem concludes (valid : Valid scope (m :: trail) progress) (way : Way scope trail m)
    {target : Module} {e : Declaration}
    (led : lead scope m.owner m.declaration = .ok (.to target e)) (outcome : Outcome)
    (means : match outcome with
      | .resolved o => IsOrigin scope e o
      | .failed => ∀ o, ¬ IsOrigin scope e o
      | .looping head => ∃ n ∈ m :: trail, n.declaration.id = head ∧ TransGen (Next scope) m n) :
    let concluded := conclude scope m target e outcome progress
    Valid scope trail concluded.2 ∧ concluded.1.Means scope trail m := by
  have hm := valid.trail m List.mem_cons_self
  have origin := fun o => isOrigin_iff_of_to sound hm led (o := o)
  have inTree : e ∈ scope.tree.declarations := by
    obtain ⟨there, published⟩ := lead_mem sound led
    exact sound.mem_declarations.mpr ⟨target, there, published⟩
  rw [conclude.eq_def]
  dsimp only
  cases outcome with
  | resolved o =>
    dsimp only at means ⊢
    split
    · rename_i visible
      refine ⟨valid.settle sound fun o' => ?_, (origin o).mpr ⟨visible, means⟩⟩
      rw [Option.some.injEq, origin]
      constructor
      · rintro rfl
        exact ⟨visible, means⟩
      · exact fun ⟨_, other⟩ => means.unique sound other inTree
    · rename_i hidden
      have none_visible : ∀ o, ¬ IsOrigin scope m.declaration o :=
        fun o h => hidden ((origin o).mp h).1
      exact ⟨valid.fail sound _ none_visible, none_visible⟩
  | failed =>
    have none_behind : ∀ o, ¬ IsOrigin scope m.declaration o :=
      fun o h => means o ((origin o).mp h).2
    exact ⟨valid.fail sound _ none_behind, none_behind⟩
  | looping head =>
    obtain ⟨n, mem, same, back⟩ := means
    -- from the head the trail leads to `m` again
    have cycle : TransGen (Next scope) m m := by
      rcases List.mem_cons.mp mem with rfl | mem
      · exact back
      · exact back.trans (way.reaches n mem)
    have none_there := not_isOrigin_of_cycle sound hm cycle
    refine ⟨valid.settle sound fun o => by simp [none_there o], ?_⟩
    dsimp only
    split
    · exact none_there
    · rename_i differ
      refine ⟨n, ?_, same, back.to_reflTransGen⟩
      rcases List.mem_cons.mp mem with rfl | mem
      · exact absurd same differ
      · exact mem

theorem nodup_pending (valid : Valid scope trail progress) : progress.pending.Nodup :=
  (List.nodup_append.mp (valid.partition.nodup_iff.mpr sound.nodup_members)).1

/-- What is settled is settled right, and no longer pending. -/
theorem settled (valid : Valid scope trail progress) (hm : m.Of scope.tree)
    {origin : Option Declaration} (settled : progress.settled? m.declaration.id = some origin) :
    (∀ o, origin = some o ↔ IsOrigin scope m.declaration o) ∧
      m.declaration.id ∉ progress.pending := by
  obtain ⟨⟨id, _⟩, found, rfl⟩ := Option.map_eq_some_iff.mp settled
  obtain rfl : id = m.declaration.id := by simpa using List.find?_some found
  have mem := List.mem_of_find?_eq_some found
  refine ⟨valid.right m hm _ mem, fun pending => ?_⟩
  have apart := (List.nodup_append.mp (valid.partition.nodup_iff.mpr sound.nodup_members)).2.2
  exact apart _ pending _ (List.mem_append_left _ (List.mem_map_of_mem mem)) rfl

end Valid

theorem pending_conclude (scope : Scope) (m : Member) (target : Module) (e : Declaration)
    (outcome : Outcome) (progress : Progress) :
    (conclude scope m target e outcome progress).2.pending = progress.pending := by
  rw [conclude.eq_def]
  cases outcome with
  | resolved o =>
    dsimp only
    split <;> rfl
  | failed => rfl
  | looping head => rfl

variable {scope : Scope} (sound : scope.tree.Sound)

include sound

/-- What following `m` comes to: all is kept right, `m` is no longer pending, and the outcome says
what became of it. -/
structure Followed (scope : Scope) (trail : List Member) (m : Member) (progress : Progress)
    (followed : Outcome × Progress) : Prop where
  valid : Valid scope trail followed.2
  means : followed.1.Means scope trail m
  pending : ∀ id ∈ followed.2.pending, id ∈ progress.pending ∧ id ≠ m.declaration.id

namespace Valid

variable {trail : List Member} {m : Member} {progress : Progress}

/-- A re-export that is settled is not followed again. -/
theorem followed_of_settled (valid : Valid scope trail progress) (hm : m.Of scope.tree)
    {origin : Option Declaration} (settled : progress.settled? m.declaration.id = some origin) :
    Followed scope trail m progress
      (match origin with | some o => .resolved o | none => .failed, progress) := by
  obtain ⟨right, done⟩ := valid.settled sound hm settled
  refine ⟨valid, ?_, fun id mem => ⟨mem, fun same => done (same ▸ mem)⟩⟩
  cases origin with
  | some o => exact (right o).mp rfl
  | none => exact fun o h => absurd ((right o).mpr h) (by simp)

/-- A re-export that is neither settled nor pending closes a cycle. -/
theorem followed_of_started (valid : Valid scope trail progress) (hm : m.Of scope.tree)
    (unsettled : progress.settled? m.declaration.id = none)
    (started : m.declaration.id ∉ progress.pending) :
    Followed scope trail m progress (closeCycle trail m progress) :=
  ⟨valid.report _, ⟨m, valid.mem_trail sound hm unsettled started, rfl, .refl⟩,
    fun _ mem => ⟨mem, fun same => started (same ▸ mem)⟩⟩

omit sound in
/-- Starting a re-export takes it, and nothing else, off the pending ones. -/
theorem pending_start (distinct : progress.pending.Nodup) :
    ∀ id ∈ (progress.start m.declaration.id).pending,
      id ∈ progress.pending ∧ id ≠ m.declaration.id :=
  fun _ mem => (distinct.mem_erase_iff.mp mem).symm

/-- A re-export is concluded by what became of the one that it leads to. -/
theorem followed_of_to (valid : Valid scope trail progress) (way : Way scope trail m)
    {target : Module} {e : Declaration}
    (led : lead scope m.owner m.declaration = .ok (.to target e))
    (reexport : e.isReexport = true) {followed : Outcome × Progress}
    (behind : Followed scope (m :: trail) ⟨target, e⟩ (progress.start m.declaration.id) followed) :
    Followed scope trail m progress (conclude scope m target e followed.1 followed.2) := by
  have next : Next scope m ⟨target, e⟩ := ⟨reexport, led⟩
  obtain ⟨after, means, fewer⟩ := behind
  obtain ⟨concluded, meaning⟩ := after.concludes sound way led followed.1 (by
    cases outcome : followed.1 <;> rw [outcome] at means
    case resolved o => exact means
    case failed => exact means
    case looping head =>
      obtain ⟨n, mem, same, onward⟩ := means
      exact ⟨n, mem, same, TransGen.head' next onward⟩)
  refine ⟨concluded, meaning, ?_⟩
  rw [pending_conclude]
  exact fun id mem => pending_start (valid.nodup_pending sound) id (fewer id mem).1

/-- A re-export of a concrete declaration is concluded at once. -/
theorem followed_of_concrete (valid : Valid scope trail progress) (hm : m.Of scope.tree)
    (pending : m.declaration.id ∈ progress.pending) (way : Way scope trail m) {target : Module}
    {e : Declaration} (led : lead scope m.owner m.declaration = .ok (.to target e))
    (concrete : IsConcrete e) : Followed scope trail m progress
      (conclude scope m target e (.resolved e) (progress.start m.declaration.id)) := by
  obtain ⟨concluded, meaning⟩ := (valid.start hm pending).concludes sound way led
    (.resolved e) ((isOrigin_iff_of_isConcrete concrete).mpr rfl)
  refine ⟨concluded, meaning, ?_⟩
  rw [pending_conclude]
  exact pending_start (valid.nodup_pending sound)

end Valid

/-- Following a re-export of the tree comes to what it should, on whatever trail. -/
theorem Follows.followed {trail : List Member} {m : Member} {progress : Progress}
    {followed : Outcome × Progress} (follows : Follows scope trail m progress followed)
    (hm : m.Of scope.tree) (valid : Valid scope trail progress) (way : Way scope trail m) :
    Followed scope trail m progress followed := by
  induction follows with
  | known settled => exact valid.followed_of_settled sound hm settled
  | lost settled => exact valid.followed_of_settled sound hm settled
  | again unsettled started => exact valid.followed_of_started sound hm unsettled started
  | astray pending error =>
    have nowhere := not_isOrigin_of_error sound hm error
    exact ⟨(valid.start hm pending).fail sound _ nowhere, nowhere,
      Valid.pending_start (valid.nodup_pending sound)⟩
  | itself pending itself =>
    have origin := fun o => isOrigin_iff_of_itself itself (o := o)
    refine ⟨(valid.start hm pending).settle sound fun o => ?_, (origin _).mpr rfl,
      Valid.pending_start (valid.nodup_pending sound)⟩
    rw [origin, Option.some.injEq, eq_comm]
  | concrete pending led concrete =>
    exact valid.followed_of_concrete sound hm pending way led fun h => concrete h.1
  | onward pending led reexport _ ih =>
    have next : Next scope _ ⟨_, _⟩ := ⟨reexport, led⟩
    exact valid.followed_of_to sound way led reexport
      (ih (next.of sound) (valid.start hm pending) (List.isChain_cons_cons.mpr ⟨next, way⟩))

omit sound in
/-- Follows re-exports in the given order, where all of them are pending at first. -/
def followIn (scope : Scope) (order : List Member) : Progress :=
  order.foldl (fun progress member => (follow scope [] member progress).2)
    ⟨order.map (·.declaration.id), [], []⟩

/-- In whatever order the re-exports of a tree are followed, in the end each is settled once, and
settled right. -/
theorem settles_followIn {order : List Member} (perm : order.Perm (members scope.tree)) :
    (followIn scope order).pending = [] ∧
      ((followIn scope order).settled.map (·.1)).Perm (ids scope.tree) ∧
        ∀ m : Member, m.Of scope.tree → ∀ origin,
          (m.declaration.id, origin) ∈ (followIn scope order).settled →
            ∀ o, origin = some o ↔ IsOrigin scope m.declaration o := by
  have run : ∀ (rest : List Member) (progress : Progress), (∀ m ∈ rest, m.Of scope.tree) →
      Valid scope [] progress →
        let last := rest.foldl (fun progress member => (follow scope [] member progress).2) progress
        Valid scope [] last ∧ ∀ id ∈ last.pending,
          id ∈ progress.pending ∧ id ∉ rest.map (·.declaration.id) := by
    intro rest
    induction rest with
    | nil => exact fun progress _ valid => ⟨valid, fun id mem => ⟨mem, List.not_mem_nil⟩⟩
    | cons m rest ih =>
      intro progress all valid
      obtain ⟨hm, others⟩ := List.forall_mem_cons.mp all
      obtain ⟨after, -, fewer⟩ :=
        (follows_follow scope [] m progress).followed sound hm valid (List.IsChain.singleton m)
      obtain ⟨last, left⟩ := ih _ others after
      refine ⟨last, fun id mem => ?_⟩
      obtain ⟨before, new⟩ := fewer id (left id mem).1
      exact ⟨before, by simpa [new] using (left id mem).2⟩
  have known : ∀ m ∈ order, m.Of scope.tree :=
    fun m mem => sound.mem_members.mp (perm.mem_iff.mp mem)
  have initial : Valid scope [] ⟨order.map (·.declaration.id), [], []⟩ :=
    ⟨by simpa [ids] using perm.map _, fun _ absent => absurd absent List.not_mem_nil,
      fun _ _ _ absent => absurd absent List.not_mem_nil⟩
  obtain ⟨valid, left⟩ := run order _ known initial
  have done : (followIn scope order).pending = [] :=
    List.eq_nil_iff_forall_not_mem.mpr fun id mem => (left id mem).2 (left id mem).1
  have partition := valid.partition
  rw [← followIn, done, List.nil_append, List.map_nil, List.append_nil] at partition
  exact ⟨done, partition, valid.right⟩

end Reexport

end LetModules
