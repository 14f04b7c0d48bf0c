import LetModules.Proofs.Reexport.Search

/-!
What declarations stand for. A declaration stands for the end of its chain of re-exports, and for
nothing if its chain breaks off or runs into a cycle. It does not matter in which order the
re-exports of the tree are followed.
-/

namespace LetModules

/-- What the re-exports stand for when they are followed in the given order. -/
def Exports.inOrder (scope : Scope) (order : List Reexport.Member) : Exports :=
  ⟨(Reexport.followIn scope order).settled⟩

namespace ModuleTree.Sound

open Reexport

variable {scope : Scope} (sound : scope.tree.Sound)

include sound

/-- Whatever the order, the origin of a declaration is the end of its chain. -/
theorem originOf_inOrder_eq_some_iff {order : List Member}
    (perm : order.Perm (members scope.tree)) {d o : Declaration}
    (mem : d ∈ scope.tree.declarations) :
    (Exports.inOrder scope order).originOf d = some o ↔ IsOrigin scope d o := by
  rw [Exports.originOf]
  split
  · rename_i reexport
    obtain ⟨owner, hm, -, declared⟩ := sound.exists_owner mem
    have of : Member.Of scope.tree ⟨owner, d⟩ := ⟨hm, declared, reexport⟩
    obtain ⟨-, settled, right⟩ := settles_followIn sound perm
    have distinct := settled.nodup_iff.mpr sound.nodup_members
    have known : d.id ∈ (followIn scope order).settled.map (·.1) :=
      settled.mem_iff.mpr (List.mem_map_of_mem (sound.mem_members.mpr of))
    obtain ⟨⟨_, origin⟩, listed, rfl⟩ := List.mem_map.mp known
    have found := (find?_eq_some_iff_of_nodup distinct).mpr ⟨listed, rfl⟩
    rw [Exports.inOrder, found, Option.bind_some]
    exact right _ of origin listed o
  · rename_i concrete
    rw [isOrigin_iff_of_isConcrete fun h => concrete h.1, Option.some.injEq, eq_comm]

/-- The origin of a declaration is the end of its chain. -/
theorem originOf_eq_some_iff {d o : Declaration} (mem : d ∈ scope.tree.declarations) :
    (Exports.ofScope scope).1.originOf d = some o ↔ IsOrigin scope d o :=
  sound.originOf_inOrder_eq_some_iff (List.Perm.refl _) mem

end ModuleTree.Sound

namespace Scope.Sound

open Reexport

variable {scope : Scope} (sound : scope.Sound)

include sound

theorem originOf_inOrder_eq_some_iff {order : List Member}
    (perm : order.Perm (members scope.tree)) {d o : Declaration}
    (mem : d ∈ scope.tree.declarations) :
    (Exports.inOrder scope order).originOf d = some o ↔ IsOrigin scope d o :=
  sound.tree.originOf_inOrder_eq_some_iff perm mem

theorem originOf_eq_some_iff {d o : Declaration} (mem : d ∈ scope.tree.declarations) :
    (Exports.ofScope scope).1.originOf d = some o ↔ IsOrigin scope d o :=
  sound.tree.originOf_eq_some_iff mem

end Scope.Sound

theorem Reexport.settled_followIn {scope : Scope} (sound : scope.Sound) {order : List Member}
    (perm : order.Perm (members scope.tree)) : (followIn scope order).pending = [] ∧
      ((followIn scope order).settled.map (·.1)).Perm (ids scope.tree) ∧
        ∀ m : Member, m.Of scope.tree → ∀ origin,
          (m.declaration.id, origin) ∈ (followIn scope order).settled →
            ∀ o, origin = some o ↔ IsOrigin scope m.declaration o :=
  settles_followIn sound.tree perm

/-- In the tree of any packages a declaration stands for `o` if and only if a chain leads from it to
`o`. Every re-export is settled, once, and no order of following them gives other answers. -/
theorem originOf_iff_chain (settings : Settings) (sources : List PackageSource) :
    let scope := Scope.ofSources settings sources
    (∀ d ∈ scope.tree.declarations, ∀ o, (Exports.ofScope scope).1.originOf d = some o ↔
      Relation.ReflTransGen (Reexport.Leads scope) d o ∧ Reexport.IsConcrete o) ∧
    (Reexport.followAll scope).pending = [] ∧
    ((Reexport.followAll scope).settled.map (·.1)).Perm
      ((scope.tree.declarations.filter (·.isReexport)).map (·.id)) ∧
    ∀ order : List Reexport.Member, order.Perm (Reexport.members scope.tree) →
      ∀ d ∈ scope.tree.declarations,
        (Exports.inOrder scope order).originOf d = (Exports.ofScope scope).1.originOf d := by
  intro scope
  have sound := Scope.sound_ofSources settings sources
  obtain ⟨done, settled, -⟩ := Reexport.settled_followIn sound (List.Perm.refl _)
  refine ⟨fun d mem o => sound.originOf_eq_some_iff mem, done, settled.trans ?_,
    fun order perm d mem => ?_⟩
  · have perm := sound.tree.members_perm.map (·.id)
    rwa [List.map_map] at perm
  · ext o
    rw [sound.originOf_inOrder_eq_some_iff perm mem, sound.originOf_eq_some_iff mem]

end LetModules
