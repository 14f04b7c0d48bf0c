import LetModules.Exports
import LetModules.Proofs.Scope.Locate
import Mathlib.Logic.Relation

/-!
Chains of re-exports. A re-export with a path leads to the declaration that it republishes, if that
exists, is offered and is visible (`Leads`); a declaration stands for the concrete one at the end of
its chain (`IsOrigin`). Each re-export leads to one declaration at most, so there is one origin at
most, and none on or before a cycle (`not_isOrigin_of_cycle`).
-/

namespace LetModules.Reexport

open Relation (ReflTransGen TransGen)

/-- A declaration that republishes nothing: no re-export, or one without a path. -/
def IsConcrete (d : Declaration) : Prop := ¬ (d.isReexport = true ∧ d.source.isSome = true)

/-- The re-export `d` of `owner` takes over the declaration `e` of `target`. -/
structure TakesOver (scope : Scope) (d : Declaration) (path : ModulePath) (owner target : Module)
    (e : Declaration) : Prop where
  reexport : d.isReexport = true
  source : d.source = some path
  owned : scope.tree.module? d.owner = some owner
  located : scope.locate path owner = .ok target
  elsewhere : target.id ≠ owner.id
  published : target.declaration? d.name = some e
  notPrivate : e.tier ≠ .private
  notEntryPoint : scope.pairings.isEntryPoint e = false
  visible : scope.tree.visible e owner = true

/-- The link of a chain: `d` is a re-export that takes over `e`. -/
def Leads (scope : Scope) (d e : Declaration) : Prop :=
  ∃ path owner target, TakesOver scope d path owner target e

/-- A chain leads from `d` to the concrete declaration `o`. -/
def IsOrigin (scope : Scope) (d o : Declaration) : Prop :=
  ReflTransGen (Leads scope) d o ∧ IsConcrete o

/-- What is offered is not private and no entry point. -/
theorem isOffered_iff {scope : Scope} {e : Declaration} : isOffered scope e = true ↔
    e.tier ≠ .private ∧ scope.pairings.isEntryPoint e = false := by
  rw [isOffered, Bool.and_eq_true, Bool.not_eq_true', Bool.not_eq_true']
  refine and_congr_left fun _ => ?_
  cases e.tier <;> simp [Tier.isPrivate]

/-- Without a path a re-export stands for itself. -/
theorem lead_eq_itself_iff {scope : Scope} {owner : Module} {d : Declaration} :
    lead scope owner d = .ok .itself ↔ d.source = none := by
  rw [lead]
  cases d.source with
  | none => simp
  | some path =>
    dsimp only
    split
    · simp
    · split
      · simp
      · split
        · simp
        · split <;> simp

/-- A re-export with a path leads to a declaration that the module at the path offers. -/
theorem lead_eq_to_iff {scope : Scope} {owner target : Module} {d e : Declaration} :
    lead scope owner d = .ok (.to target e) ↔
      ∃ path, d.source = some path ∧ scope.locate path owner = .ok target ∧
        target.id ≠ owner.id ∧ target.declaration? d.name = some e ∧ isOffered scope e = true := by
  rw [lead]
  cases d.source with
  | none => simp
  | some path =>
    simp only [Option.some.injEq, exists_eq_left']
    split
    · rename_i failed
      simp [failed]
    · rename_i found located
      rw [located]
      split
      · rename_i same
        constructor
        · simp
        · rintro ⟨here, differ, -⟩
          exact absurd (Except.ok.inj here ▸ same) differ
      · rename_i differ
        split
        · rename_i absent
          constructor
          · simp
          · rintro ⟨here, -, present, -⟩
            rw [← Except.ok.inj here, absent] at present
            exact absurd present (by simp)
        · rename_i published present
          split
          · rename_i offered
            constructor
            · rintro ⟨⟩
              exact ⟨rfl, differ, present, offered⟩
            · rintro ⟨here, -, there, -⟩
              obtain rfl := Except.ok.inj here
              obtain rfl := Option.some.inj (present.symm.trans there)
              rfl
          · rename_i withheld
            constructor
            · simp
            · rintro ⟨here, -, there, offered⟩
              rw [← Except.ok.inj here, present] at there
              exact absurd (Option.some.inj there ▸ offered) withheld

/-- A re-export of the tree, with its owner. -/
structure Member.Of (tree : ModuleTree) (m : Member) : Prop where
  owner : m.owner ∈ tree.modules
  declared : m.declaration ∈ m.owner.declarations
  reexport : m.declaration.isReexport = true

/-- The re-export that a re-export leads to, whether it may see it or not. -/
def Next (scope : Scope) (m n : Member) : Prop :=
  n.declaration.isReexport = true ∧
    lead scope m.owner m.declaration = .ok (.to n.owner n.declaration)

theorem Next.unique {scope : Scope} {m n n' : Member} (h : Next scope m n) (h' : Next scope m n') :
    n = n' := by
  have same := h.2.symm.trans h'.2
  simp only [Except.ok.injEq, Lead.to.injEq] at same
  cases n; cases n'
  simp_all

variable {scope : Scope} (sound : scope.tree.Sound)

include sound

theorem Member.Of.mem {m : Member} (h : m.Of scope.tree) :
    m.declaration ∈ scope.tree.declarations :=
  sound.mem_declarations.mpr ⟨m.owner, h.owner, h.declared⟩

/-- A re-export of the tree is told by its id. -/
theorem Member.Of.inj {m n : Member} (hm : m.Of scope.tree) (hn : n.Of scope.tree)
    (same : m.declaration.id = n.declaration.id) : m = n := by
  have declaration := sound.declaration_inj (hm.mem sound) (hn.mem sound) same
  have owner : m.owner = n.owner := by
    refine sound.module_inj hm.owner hn.owner ?_
    rw [← sound.owner_eq hm.owner hm.declared, declaration,
      sound.owner_eq hn.owner hn.declared]
  cases m; cases n
  simp_all

theorem lead_mem {m : Member} {target : Module} {e : Declaration}
    (led : lead scope m.owner m.declaration = .ok (.to target e)) :
    target ∈ scope.tree.modules ∧ e ∈ target.declarations := by
  obtain ⟨path, -, located, -, published, -⟩ := lead_eq_to_iff.mp led
  have mem := sound.locate_mem located
  exact ⟨mem, ((sound.declaration?_name_eq_some_iff mem).mp published).1⟩

theorem Next.of {m n : Member} (h : Next scope m n) : n.Of scope.tree := by
  obtain ⟨owner, declared⟩ := lead_mem sound h.2
  exact ⟨owner, declared, h.1⟩

/-- Of a re-export in the tree, the link is where it leads, if it may see that. -/
theorem leads_iff {m : Member} (hm : m.Of scope.tree) {e : Declaration} :
    Leads scope m.declaration e ↔ ∃ target,
      lead scope m.owner m.declaration = .ok (.to target e) ∧
        scope.tree.visible e m.owner = true := by
  have owned := sound.module?_owner hm.owner hm.declared
  constructor
  · rintro ⟨path, owner, target, link⟩
    obtain rfl := Option.some.inj (owned.symm.trans link.owned)
    exact ⟨target, lead_eq_to_iff.mpr ⟨path, link.source, link.located, link.elsewhere,
      link.published, isOffered_iff.mpr ⟨link.notPrivate, link.notEntryPoint⟩⟩, link.visible⟩
  · rintro ⟨target, led, visible⟩
    obtain ⟨path, source, located, elsewhere, published, offered⟩ := lead_eq_to_iff.mp led
    obtain ⟨notPrivate, notEntryPoint⟩ := isOffered_iff.mp offered
    exact ⟨path, m.owner, target, hm.reexport, source, owned, located, elsewhere, published,
      notPrivate, notEntryPoint, visible⟩

omit sound in
/-- A concrete declaration is its own origin, and has no other. -/
theorem isOrigin_iff_of_isConcrete {d o : Declaration} (concrete : IsConcrete d) :
    IsOrigin scope d o ↔ o = d := by
  constructor
  · rintro ⟨chain, -⟩
    rcases chain.cases_head with rfl | ⟨_, ⟨_, _, _, link⟩, _⟩
    · rfl
    · exact absurd ⟨link.reexport, by simp [link.source]⟩ concrete
  · rintro rfl
    exact ⟨.refl, concrete⟩

omit sound in
theorem isOrigin_iff_of_itself {m : Member} {o : Declaration}
    (itself : lead scope m.owner m.declaration = .ok .itself) :
    IsOrigin scope m.declaration o ↔ o = m.declaration := by
  have unsourced := lead_eq_itself_iff.mp itself
  exact isOrigin_iff_of_isConcrete (by simp [IsConcrete, unsourced])

theorem not_isOrigin_of_error {m : Member} (hm : m.Of scope.tree) {cause : Cause}
    (error : lead scope m.owner m.declaration = .error cause) (o : Declaration) :
    ¬ IsOrigin scope m.declaration o := by
  rintro ⟨chain, concrete⟩
  rcases chain.cases_head with same | ⟨e, leads, -⟩
  · -- without a path it would stand for itself
    have unsourced : m.declaration.source = none := by
      simpa [IsConcrete, ← same, hm.reexport] using concrete
    rw [lead_eq_itself_iff.mpr unsourced] at error
    exact absurd error (by simp)
  · obtain ⟨target, led, -⟩ := (leads_iff sound hm).mp leads
    rw [led] at error
    exact absurd error (by simp)

/-- A re-export that leads somewhere has the origin of what is there, if it may see that. -/
theorem isOrigin_iff_of_to {m : Member} (hm : m.Of scope.tree) {target : Module} {e : Declaration}
    (led : lead scope m.owner m.declaration = .ok (.to target e)) {o : Declaration} :
    IsOrigin scope m.declaration o ↔
      scope.tree.visible e m.owner = true ∧ IsOrigin scope e o := by
  constructor
  · rintro ⟨chain, concrete⟩
    rcases chain.cases_head with same | ⟨e', leads, rest⟩
    · obtain ⟨path, source, -⟩ := lead_eq_to_iff.mp led
      rw [← same] at concrete
      exact absurd ⟨hm.reexport, by simp [source]⟩ concrete
    · obtain ⟨target', led', visible⟩ := (leads_iff sound hm).mp leads
      rw [led] at led'
      simp only [Except.ok.injEq, Lead.to.injEq] at led'
      exact ⟨led'.2 ▸ visible, led'.2 ▸ rest, concrete⟩
  · rintro ⟨visible, chain, concrete⟩
    exact ⟨chain.head ((leads_iff sound hm).mpr ⟨target, led, visible⟩), concrete⟩

/-- A re-export on a cycle has no origin. -/
theorem not_isOrigin_of_cycle {m : Member} (hm : m.Of scope.tree)
    (cycle : TransGen (Next scope) m m) (o : Declaration) : ¬ IsOrigin scope m.declaration o := by
  rintro ⟨chain, concrete⟩
  -- along the chain every declaration is on the cycle, the last one too
  have ends : ∀ d, ReflTransGen (Leads scope) d o → ∀ m : Member, m.Of scope.tree →
      TransGen (Next scope) m m → m.declaration ≠ d := by
    intro d chain
    induction chain using ReflTransGen.head_induction_on with
    | refl =>
      rintro m hm cycle rfl
      obtain ⟨n, next, -⟩ := TransGen.head'_iff.mp cycle
      obtain ⟨path, source, -⟩ := lead_eq_to_iff.mp next.2
      exact concrete ⟨hm.reexport, by simp [source]⟩
    | head leads _ ih =>
      rintro m hm cycle rfl
      obtain ⟨n, next, rest⟩ := TransGen.head'_iff.mp cycle
      obtain ⟨target, led, -⟩ := (leads_iff sound hm).mp leads
      have same := led.symm.trans next.2
      simp only [Except.ok.injEq, Lead.to.injEq] at same
      exact ih n (next.of sound) (TransGen.tail' rest next) same.2.symm
  exact ends _ chain m hm cycle rfl

/-- A declaration has one origin at most. -/
theorem IsOrigin.unique {d o o' : Declaration} (h : IsOrigin scope d o) (h' : IsOrigin scope d o')
    (mem : d ∈ scope.tree.declarations) : o = o' := by
  obtain ⟨chain, concrete⟩ := h
  induction chain using ReflTransGen.head_induction_on with
  | refl => exact ((isOrigin_iff_of_isConcrete concrete).mp h').symm
  | head leads _ ih =>
    obtain ⟨owner, hm, -, declared⟩ := sound.exists_owner mem
    obtain ⟨_, _, _, link⟩ := leads
    have of : Member.Of scope.tree ⟨owner, _⟩ := ⟨hm, declared, link.reexport⟩
    obtain ⟨target, led, -⟩ := (leads_iff sound of).mp ⟨_, _, _, link⟩
    obtain ⟨there, published⟩ := lead_mem sound led
    exact ih ((isOrigin_iff_of_to sound of led).mp h').2
      (sound.mem_declarations.mpr ⟨target, there, published⟩)

end LetModules.Reexport
