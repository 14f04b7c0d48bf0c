import LetModules.Binding
import LetModules.Proofs.Existence
import LetModules.Proofs.Scope.Locate

/-!
The memory of existence never shows. Whatever was asked before, a question is answered as it would
be without a memory, so questions may be asked in any order (`transparent`).

Asking leaves off as soon as something exists, so what is remembered depends on what was asked; but
each entry is a true answer (`Exact`). Of a run below a directory we keep count of the modules that
it adds entries for (`Gives`): that a folding module is not among those below it is why no question
is stored twice.
-/

namespace LetModules.Memo

/-- True answers, each stored once, and none for a module that asks about itself. -/
structure Exact (linked : Linked) (memo : Memo) : Prop where
  answers : ∀ entry ∈ memo, ∃ m ∈ linked.tree.modules, ∃ r ∈ linked.tree.modules,
    m.id ≠ r.id ∧ entry = ((m.id, r.id), linked.hasModule m r)
  once : (memo.map (·.1)).Nodup

/-- What asking about modules of a region gives: the true answer, and a memory that is exact again
and has new entries for modules of the region only. -/
structure Gives (linked : Linked) (memo : Memo) (region : Module → Prop) (truth : Bool)
    (found : Bool × Memo) : Prop where
  answer : found.1 = truth
  exact : Exact linked found.2
  added : ∃ fresh, found.2 = memo ++ fresh ∧
    ∀ entry ∈ fresh, ∃ m ∈ linked.tree.modules, region m ∧ entry.1.1 = m.id

/-- The modules of which it depends whether something exists in or below a directory: all that lie
there but the one that folds it. -/
def Inside (d : Directory) (m : Module) : Prop :=
  m ∈ d.modules ∧ m.folds = false ∨ ∃ child ∈ d.children, ∃ e ∈ child.subtree, m ∈ e.modules

variable {linked : Linked} {memo : Memo}

theorem known?_eq_none_iff {m r : ModuleId} :
    memo.known? m r = none ↔ (m, r) ∉ memo.map (·.1) := by
  simp only [known?, Option.map_eq_none_iff, List.find?_eq_none, decide_eq_true_eq, List.mem_map,
    not_exists, not_and]

theorem exact_nil : Exact linked [] where
  answers := fun _ absent => absurd absent List.not_mem_nil
  once := List.nodup_nil

namespace Gives

variable {region region' : Module → Prop} {truth truth' : Bool} {found : Bool × Memo}

/-- An answer that adds nothing. -/
theorem given (exact : Exact linked memo) (truth : Bool) :
    Gives linked memo region truth (truth, memo) :=
  ⟨rfl, exact, [], (List.append_nil _).symm, fun _ absent => absurd absent List.not_mem_nil⟩

theorem mono (gives : Gives linked memo region truth found)
    (wider : ∀ m ∈ linked.tree.modules, region m → region' m) :
    Gives linked memo region' truth found := by
  obtain ⟨answer, exact, fresh, whole, within⟩ := gives
  refine ⟨answer, exact, fresh, whole, fun entry mem => ?_⟩
  obtain ⟨m, hm, inside, same⟩ := within entry mem
  exact ⟨m, hm, wider m hm inside, same⟩

/-- Asking in one region, and in a second one only if nothing was found. -/
theorem orElse {next : Memo → Bool × Memo} (first : Gives linked memo region truth found)
    (second : Gives linked found.2 region' truth' (next found.2)) :
    Gives linked memo (fun m => region m ∨ region' m) (truth || truth')
      (if found.1 then found else next found.2) := by
  have left : Gives linked memo (fun m => region m ∨ region' m) truth found :=
    first.mono fun _ _ => .inl
  obtain ⟨answer, -, fresh, whole, within⟩ := left
  cases truth with
  | true =>
    rw [if_pos answer, Bool.true_or]
    exact first.mono fun _ _ => .inl
  | false =>
    rw [if_neg (by simp [answer]), Bool.false_or]
    obtain ⟨answer', exact', fresh', whole', within'⟩ := second
    refine ⟨answer', exact', fresh ++ fresh', by rw [whole', whole, List.append_assoc], ?_⟩
    intro entry mem
    rcases List.mem_append.mp mem with mem | mem
    · exact within entry mem
    · obtain ⟨m, hm, inside, same⟩ := within' entry mem
      exact ⟨m, hm, .inr inside, same⟩

end Gives

theorem askBelow_eq (requester : Module) (d : Directory) (memo : Memo) :
    askBelow linked requester d memo =
      let first := askPlain linked requester d.plain memo
      if first.1 then first else askBelowAny linked requester d.children first.2 := by
  cases d
  rw [askBelow]

section Runs

variable (sound : linked.tree.Sound) {requester : Module} (hr : requester ∈ linked.tree.modules)

include sound hr

/-- What is stored about modules of the tree is the answer for them. -/
theorem known?_eq_some (exact : Exact linked memo) {m : Module} (hm : m ∈ linked.tree.modules)
    {known : Bool} (found : memo.known? m.id requester.id = some known) :
    known = linked.hasModule m requester := by
  obtain ⟨entry, there, rfl⟩ := Option.map_eq_some_iff.mp found
  obtain ⟨mem, same⟩ := (find?_eq_some_iff_of_nodup exact.once).mp there
  obtain ⟨k, hk, s, hs, -, rfl⟩ := exact.answers entry mem
  obtain rfl := sound.module_inj hk hm (Prod.mk.inj same).1
  obtain rfl := sound.module_inj hs hr (Prod.mk.inj same).2
  rfl

/-- Asking about a module whose answer rests on those of a region that it is not in. -/
theorem gives_ask (exact : Exact linked memo) {m : Module} (hm : m ∈ linked.tree.modules)
    {region : Module → Prop} (outside : ¬ region m) {truth : Bool} {deeper : Memo → Bool × Memo}
    (below : Gives linked memo region truth (deeper memo))
    (rests : linked.hasModule m requester = Existence.answer linked requester m truth) :
    Gives linked memo (fun k => k = m ∨ region k) (linked.hasModule m requester)
      (ask linked requester m deeper memo) := by
  rw [ask]
  by_cases own : m.id = requester.id
  · rw [if_pos own, rests, Existence.answer_iff.mpr (.inl (.inl own))]
    exact .given exact true
  · rw [if_neg own]
    cases stored : memo.known? m.id requester.id with
    | some known =>
      rw [← known?_eq_some sound hr exact hm stored]
      exact .given exact known
    | none =>
      dsimp only
      -- either way the answer is true, and the question is still not stored when it is given
      have gives : Gives linked memo region (linked.hasModule m requester)
          (if linked.showsExport requester m then (true, memo) else deeper memo) := by
        rw [rests, Existence.answer, decide_eq_false own, Bool.false_or]
        cases linked.showsExport requester m with
        | true => exact .given exact true
        | false => exact below
      obtain ⟨answer, exact', fresh, whole, within⟩ := gives
      have unstored : (m.id, requester.id) ∉ (memo ++ fresh).map (·.1) := by
        rw [List.map_append, List.mem_append, not_or]
        refine ⟨known?_eq_none_iff.mp stored, fun again => ?_⟩
        obtain ⟨entry, mem, same⟩ := List.mem_map.mp again
        obtain ⟨k, hk, inside, named⟩ := within entry mem
        obtain rfl := sound.module_inj hk hm (by rw [← named, same])
        exact outside inside
      refine ⟨answer, ⟨?_, ?_⟩, fresh ++ [((m.id, requester.id), linked.hasModule m requester)],
        by rw [whole, answer, List.append_assoc], ?_⟩
      · intro entry mem
        rcases List.mem_append.mp mem with mem | mem
        · exact exact'.answers entry mem
        · exact ⟨m, hm, requester, hr, own, by rw [List.mem_singleton.mp mem, answer]⟩
      · rw [List.map_append, List.map_singleton]
        refine (List.perm_append_singleton _ _).nodup_iff.mpr
          (List.nodup_cons.mpr ⟨?_, exact'.once⟩)
        rw [whole]
        exact unstored
      · intro entry mem
        rcases List.mem_append.mp mem with mem | mem
        · obtain ⟨k, hk, inside, same⟩ := within entry mem
          exact ⟨k, hk, .inr inside, same⟩
        · exact ⟨m, hm, .inl rfl, by rw [List.mem_singleton.mp mem]⟩

omit sound hr in
/-- A module that folds nothing exists if it shows itself. -/
theorem hasModule_eq_of_flat {m : Module} (flat : m.folds = false) (requester : Module) :
    linked.hasModule m requester = Existence.answer linked requester m false := by
  rw [Linked.hasModule, Linked.folded?, flat, if_neg (by simp)]

theorem gives_ask_flat (exact : Exact linked memo) {m : Module} (hm : m ∈ linked.tree.modules)
    (flat : m.folds = false) :
    Gives linked memo (· = m) (linked.hasModule m requester)
      (ask linked requester m (fun memo => (false, memo)) memo) := by
  have nowhere : Gives linked memo (fun _ => False) false (false, memo) := .given exact false
  refine (gives_ask sound hr exact hm id nowhere (hasModule_eq_of_flat flat requester)).mono
    fun k _ => ?_
  rw [or_false]
  exact id

/-- Modules that fold nothing are asked one after the other. -/
theorem gives_askPlain : ∀ (modules : List Module),
    (∀ m ∈ modules, m ∈ linked.tree.modules ∧ m.folds = false) →
      ∀ {memo : Memo}, Exact linked memo →
        Gives linked memo (· ∈ modules)
          (modules.any (Existence.answer linked requester · false))
          (askPlain linked requester modules memo)
  | [], _, _, exact => .given exact false
  | m :: rest, plain, memo, exact => by
    obtain ⟨hm, flat⟩ := plain m List.mem_cons_self
    have first := gives_ask_flat sound hr exact hm flat
    have others := gives_askPlain rest (fun k hk => plain k (List.mem_cons_of_mem _ hk)) first.exact
    rw [askPlain, List.any_cons, ← hasModule_eq_of_flat flat]
    exact (first.orElse others).mono fun k _ => List.mem_cons.mpr

omit hr in
/-- The module that folds a directory lies neither among the others in it nor below it. -/
theorem not_inside_of_folds {d : Directory} (hd : d ∈ linked.tree.directories) {m : Module}
    (hm : m ∈ d.modules) (folds : m.folds = true) : ¬ Inside d m := by
  rintro (⟨-, flat⟩ | ⟨child, hc, e, he, hm'⟩)
  · exact absurd (folds.symm.trans flat) (by simp)
  · have orderly := sound.orderly hd
    have below := Directory.mem_subtree_of_child hc he
    have sits := sound.sits ((sound.mem_subtree_iff hd).mp below).1 hm'
    have same : e.path = d.path := sits.directoryPath.symm.trans (sound.sits hd hm).directoryPath
    have longer := ((Directory.fields_of_mem_subtree (orderly.child hc) he).2.2).length_le
    rw [same, orderly.shaped_self.path child hc, List.length_append] at longer
    exact absurd longer (Nat.not_succ_le_self _)

omit hr in
/-- A folding module exists if it shows itself or if something inside its directory does. -/
theorem hasModule_eq_of_fold {d : Directory} (hd : d ∈ linked.tree.directories) {m : Module}
    (hm : m ∈ d.modules) (folds : m.folds = true) (requester : Module) :
    linked.hasModule m requester =
      Existence.answer linked requester m (Existence.below linked requester d) := by
  have found : linked.tree.directory? m.directory = some d :=
    sound.directory?_eq_some_iff.mpr ⟨hd, (sound.sits hd hm).directory.symm⟩
  rw [Linked.hasModule, Linked.folded?, if_pos folds, found]

/-- Directories are asked one after the other, each as the module that folds it if there is one. -/
theorem gives_askBelowAny : ∀ (children : List Directory),
    (∀ child ∈ children, child ∈ linked.tree.directories ∧ ∀ {memo : Memo}, Exact linked memo →
      Gives linked memo (Inside child) (Existence.below linked requester child)
        (askBelow linked requester child memo)) →
      ∀ {memo : Memo}, Exact linked memo →
        Gives linked memo (fun m => ∃ child ∈ children, ∃ e ∈ child.subtree, m ∈ e.modules)
          (Existence.belowAny linked requester children)
          (askBelowAny linked requester children memo)
  | [], _, _, exact => by
    rw [askBelowAny, Existence.belowAny]
    exact .given exact false
  | child :: rest, each, memo, exact => by
    obtain ⟨hd, asked⟩ := each child List.mem_cons_self
    have inSubtree : ∀ m, Inside child m → ∃ e ∈ child.subtree, m ∈ e.modules := by
      rintro m (⟨hm, -⟩ | ⟨c, hc, e, he, hm⟩)
      · exact ⟨child, child.mem_subtree_self, hm⟩
      · exact ⟨e, Directory.mem_subtree_of_child hc he, hm⟩
    have goesOn : ∀ {truth : Bool} {found : Bool × Memo},
        Gives linked memo (fun m => ∃ e ∈ child.subtree, m ∈ e.modules) truth found →
          Gives linked memo (fun m => ∃ c ∈ child :: rest, ∃ e ∈ c.subtree, m ∈ e.modules)
            (truth || Existence.belowAny linked requester rest)
            (if found.1 then found else askBelowAny linked requester rest found.2) := by
      intro truth found first
      have others :=
        gives_askBelowAny rest (fun c hc => each c (List.mem_cons_of_mem _ hc)) first.exact
      refine (first.orElse others).mono fun m _ => ?_
      simp only [List.mem_cons, exists_eq_or_imp]
      exact id
    rw [askBelowAny, Existence.belowAny]
    refine goesOn ?_
    cases fold : child.fold? with
    | none => exact (asked exact).mono fun m _ => inSubtree m
    | some m =>
      obtain ⟨hm, folds⟩ := (Directory.fold?_eq_some_iff (sound.distinct child hd)).mp fold
      have rests := hasModule_eq_of_fold sound hd hm folds requester
      dsimp only
      rw [← rests]
      refine (gives_ask sound hr exact (sound.mem_modules.mpr ⟨child, hd, hm⟩)
        (not_inside_of_folds sound hd hm folds) (asked exact) rests).mono ?_
      rintro k - (rfl | inside)
      · exact ⟨child, child.mem_subtree_self, hm⟩
      · exact inSubtree k inside

/-- Asking in and below a directory adds entries for what lies inside it. -/
theorem gives_askBelow {d : Directory} (hd : d ∈ linked.tree.directories) :
    ∀ {memo : Memo}, Exact linked memo →
      Gives linked memo (Inside d) (Existence.below linked requester d)
        (askBelow linked requester d memo) := by
  induction d using Directory.induction with
  | step d ih =>
    intro memo exact
    have plain : ∀ m ∈ d.plain, m ∈ linked.tree.modules ∧ m.folds = false := by
      intro m hm
      obtain ⟨hm, flat⟩ := Directory.mem_plain.mp hm
      exact ⟨sound.mem_modules.mpr ⟨d, hd, hm⟩, flat⟩
    have here := gives_askPlain sound hr d.plain plain exact
    have inTree : ∀ child ∈ d.children, child ∈ linked.tree.directories := fun child hc =>
      ((sound.mem_subtree_iff hd).mp
        (Directory.mem_subtree_of_child hc child.mem_subtree_self)).1
    have below := gives_askBelowAny sound hr d.children
      (fun child hc => ⟨inTree child hc, ih child hc (inTree child hc)⟩) here.exact
    rw [askBelow_eq, Existence.below_eq]
    exact (here.orElse below).mono fun m _ => .imp_left Directory.mem_plain.mp

/-- A question is answered truly, and the memory stays exact. -/
theorem gives_hasModule (exact : Exact linked memo) {m : Module}
    (hm : m ∈ linked.tree.modules) :
    Gives linked memo (fun _ => True) (linked.hasModule m requester)
      (hasModule linked m requester memo) := by
  cases folds : m.folds with
  | false =>
    rw [hasModule, Linked.folded?, folds, if_neg (by simp)]
    exact (gives_ask_flat sound hr exact hm folds).mono fun _ _ _ => trivial
  | true =>
    obtain ⟨d, hd, found, here, -⟩ := sound.exists_directory hm
    have rests := hasModule_eq_of_fold sound hd here folds requester
    rw [hasModule, Linked.folded?, if_pos folds, found]
    exact (gives_ask sound hr exact hm (not_inside_of_folds sound hd here folds)
      (gives_askBelow sound hr hd exact) rests).mono fun _ _ _ => trivial

/-- Whatever question of one module about another has been asked is stored. -/
theorem mem_hasModule (exact : Exact linked memo) {m : Module} (hm : m ∈ linked.tree.modules)
    (other : m.id ≠ requester.id) :
    ((m.id, requester.id), linked.hasModule m requester) ∈
      (hasModule linked m requester memo).2 := by
  have gives := gives_hasModule sound hr exact hm
  have stored : (m.id, requester.id) ∈ (hasModule linked m requester memo).2.map (·.1) := by
    rw [hasModule, ask, if_neg other]
    cases found : memo.known? m.id requester.id with
    | none => simp
    | some known =>
      by_contra absent
      rw [known?_eq_none_iff.mpr absent] at found
      exact absurd found (by simp)
  obtain ⟨entry, mem, same⟩ := List.mem_map.mp stored
  obtain ⟨k, hk, s, hs, -, rfl⟩ := gives.exact.answers entry mem
  obtain rfl := sound.module_inj hk hm (Prod.mk.inj same).1
  obtain rfl := sound.module_inj hs hr (Prod.mk.inj same).2
  exact mem

end Runs

/-! ### Runs of questions -/

/-- A question that is answered with the memory, about modules of a tree. -/
inductive Question (tree : ModuleTree) where
  /-- Does a module exist for a requester? -/
  | existence (module requester : { m // m ∈ tree.modules })
  /-- Which modules exist for a requester? -/
  | listing (requester : { m // m ∈ tree.modules })
  /-- From which module does an import statement import? -/
  | target (path : ModulePath) (importer : { m // m ∈ tree.modules })

inductive Answer where
  | existence (found : Bool)
  | listing (modules : List Module)
  | target (found : Except Cause Module)

/-- The answer without a memory. -/
def Question.answer (linked : Linked) : Question linked.tree → Answer
  | .existence m r => .existence (linked.hasModule m r)
  | .listing r => .listing (linked.visibleModules r)
  | .target path importer => .target (linked.target path importer)

/-- The answer with a memory, and the memory after it. -/
def Question.recall (linked : Linked) (memo : Memo) : Question linked.tree → Answer × Memo
  | .existence m r => (hasModule linked m r memo).map .existence id
  | .listing r => (visibleModules linked r memo).map .listing id
  | .target path importer => (Memo.target linked path importer memo).map .target id

/-- The answers to questions that are asked one after the other, and the memory in the end. -/
def recallAll (linked : Linked) : List (Question linked.tree) → Memo → List Answer × Memo
  | [], memo => ([], memo)
  | question :: rest, memo =>
    let first := question.recall linked memo
    let others := recallAll linked rest first.2
    (first.1 :: others.1, others.2)

/-- What was found is true, and the memory is exact again and has lost nothing. -/
structure Recalls (linked : Linked) (memo : Memo) (truth : α) (found : α × Memo) : Prop where
  answer : found.1 = truth
  exact : Exact linked found.2
  grows : memo <+: found.2

theorem Gives.recalls {region : Module → Prop} {truth : Bool} {found : Bool × Memo}
    (gives : Gives linked memo region truth found) : Recalls linked memo truth found :=
  ⟨gives.answer, gives.exact, gives.added.imp fun _ whole => whole.1.symm⟩

theorem Recalls.map {truth : α} {found : α × Memo} (recalls : Recalls linked memo truth found)
    (f : α → β) : Recalls linked memo (f truth) (found.map f id) :=
  ⟨congrArg f recalls.answer, recalls.exact, recalls.grows⟩

section Questions

variable (sound : linked.tree.Sound)

include sound

theorem recalls_existing {requester : Module} (hr : requester ∈ linked.tree.modules) :
    ∀ (modules : List Module), (∀ m ∈ modules, m ∈ linked.tree.modules) →
      ∀ {memo : Memo}, Exact linked memo →
        Recalls linked memo (modules.filter (linked.hasModule · requester))
          (existing linked requester modules memo)
  | [], _, _, exact => ⟨rfl, exact, List.prefix_rfl⟩
  | m :: rest, inTree, memo, exact => by
    have first := (gives_hasModule sound hr exact (inTree m List.mem_cons_self)).recalls
    have others :=
      recalls_existing hr rest (fun k hk => inTree k (List.mem_cons_of_mem _ hk)) first.exact
    refine ⟨?_, others.exact, first.grows.trans others.grows⟩
    rw [existing]
    dsimp only
    rw [first.answer, others.answer, List.filter_cons]

omit sound in
/-- A module that a statement names has been located. -/
theorem locate_of_named {path : ModulePath} {importer m : Module}
    (named : linked.named path importer = .ok m) : linked.locate path importer = .ok m := by
  rw [Linked.named] at named
  cases found : linked.locate path importer with
  | error cause => simp [found] at named
  | ok target =>
    rw [found] at named
    dsimp only at named
    split at named
    · exact absurd named (by simp)
    · exact named

theorem recalls_target (path : ModulePath) {importer : Module}
    (hi : importer ∈ linked.tree.modules) (exact : Exact linked memo) :
    Recalls linked memo (linked.target path importer) (target linked path importer memo) := by
  rw [target, Linked.target]
  cases named : linked.named path importer with
  | error cause => exact ⟨rfl, exact, List.prefix_rfl⟩
  | ok m =>
    dsimp only
    cases linked.pairings.isPrivileged importer.id m.id with
    | true => exact ⟨rfl, exact, List.prefix_rfl⟩
    | false =>
      have located := sound.locate_mem (locate_of_named named)
      have gives := (gives_hasModule sound hi exact located).recalls
      refine ⟨?_, gives.exact, gives.grows⟩
      simp [gives.answer]

/-- One question, on whatever was asked before. -/
theorem Question.recalls (question : Question linked.tree) (exact : Exact linked memo) :
    Recalls linked memo (question.answer linked) (question.recall linked memo) := by
  cases question with
  | existence m r => exact (gives_hasModule sound r.2 exact m.2).recalls.map _
  | listing r =>
    have found := recalls_existing sound r.2 (linked.listable r)
      (fun m hm => List.mem_of_mem_filter hm) exact
    exact (found.map fun modules => modules.mergeSort linked.listedBefore).map _
  | target path importer => exact (recalls_target sound path importer.2 exact).map _

/-- Any number of questions, on whatever was asked before. -/
theorem recalls_recallAll : ∀ (questions : List (Question linked.tree)) {memo : Memo},
    Exact linked memo →
      Recalls linked memo (questions.map (·.answer linked)) (recallAll linked questions memo)
  | [], _, exact => ⟨rfl, exact, List.prefix_rfl⟩
  | question :: rest, memo, exact => by
    have first := question.recalls sound exact
    have others := recalls_recallAll rest first.exact
    refine ⟨?_, others.exact, first.grows.trans others.grows⟩
    rw [recallAll]
    dsimp only
    rw [first.answer, others.answer, List.map_cons]

omit sound in
theorem recallAll_append : ∀ (earlier later : List (Question linked.tree)) (memo : Memo),
    recallAll linked (earlier ++ later) memo =
      ((recallAll linked earlier memo).1 ++
          (recallAll linked later (recallAll linked earlier memo).2).1,
        (recallAll linked later (recallAll linked earlier memo).2).2)
  | [], _, _ => rfl
  | question :: rest, later, memo => by
    rw [List.cons_append, recallAll, recallAll_append rest later, recallAll]
    rfl

/-- A question of one module about another is stored from then on. -/
theorem mem_recallAll {m r : { m // m ∈ linked.tree.modules }} (other : m.1.id ≠ r.1.id) :
    ∀ (questions : List (Question linked.tree)), .existence m r ∈ questions →
      ∀ {memo : Memo}, Exact linked memo →
        ((m.1.id, r.1.id), linked.hasModule m r) ∈ (recallAll linked questions memo).2
  | question :: rest, asked, memo, exact => by
    have first := question.recalls sound exact
    rcases List.mem_cons.mp asked with rfl | asked
    · have stored := mem_hasModule sound r.2 exact m.2 other
      exact (recalls_recallAll sound rest first.exact).grows.subset stored
    · exact mem_recallAll other rest asked first.exact

end Questions

/-- A run of questions on the empty memory in which the memory does not show. -/
structure Transparent (linked : Linked) (questions : List (Question linked.tree)) : Prop where
  /-- Each question is answered as without a memory. -/
  answers : (recallAll linked questions []).1 = questions.map (·.answer linked)
  /-- After every question the entries are true, and none is of a module about itself. -/
  exact : ∀ n, Exact linked (recallAll linked (questions.take n) []).2
  /-- Entries are only ever added. -/
  grows : ∀ n k, n ≤ k →
    (recallAll linked (questions.take n) []).2 <+: (recallAll linked (questions.take k) []).2
  /-- What has been asked of one module about another is stored. -/
  stored : ∀ m r : { m // m ∈ linked.tree.modules }, .existence m r ∈ questions →
    m.1.id ≠ r.1.id →
      ((m.1.id, r.1.id), linked.hasModule m r) ∈ (recallAll linked questions []).2
  /-- In another order the questions get the same answers. -/
  order : ∀ reordered, questions.Perm reordered →
    (questions.zip (recallAll linked questions []).1).Perm
      (reordered.zip (recallAll linked reordered []).1)

/-- The memory does not show: in a grown tree, whatever the exports, no run of questions tells
whether one is kept. -/
theorem transparent (sources : List PackageSource) (registry : Registry) (pairings : Pairings)
    (exports : Exports)
    (questions : List (Question (Growth.ofSources sources).tree)) :
    Transparent ⟨⟨(Growth.ofSources sources).tree, registry, pairings⟩, exports⟩ questions := by
  have sound := Growth.sound_ofSources sources
  let linked : Linked := ⟨⟨(Growth.ofSources sources).tree, registry, pairings⟩, exports⟩
  have run : ∀ questions : List (Question linked.tree),
      Recalls linked [] (questions.map (·.answer linked)) (recallAll linked questions []) :=
    fun questions => recalls_recallAll sound questions exact_nil
  have asked : ∀ questions : List (Question linked.tree),
      questions.zip (recallAll linked questions []).1 =
        questions.map fun question => (question, question.answer linked) := by
    intro questions
    rw [(run questions).answer, List.map_prod_left_eq_zip]
  refine ⟨(run questions).answer, fun n => (run _).exact, fun n k le => ?_, ?_, ?_⟩
  · obtain ⟨later, whole⟩ := List.take_prefix_take_left (l := questions) le
    rw [← whole, recallAll_append]
    exact (recalls_recallAll sound later (run _).exact).grows
  · exact fun m r mem other => mem_recallAll sound other questions mem exact_nil
  · intro reordered perm
    rw [asked, asked]
    exact perm.map _

end LetModules.Memo
