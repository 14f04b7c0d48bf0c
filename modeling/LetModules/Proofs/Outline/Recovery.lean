import LetModules.Proofs.Outline.Exact
import Mathlib.Data.List.Infix

/-!
Recovery from problems. What is wrong with a stretch of tokens stays within it: when its brackets
balance, the outline of the stretch and of any items after it is put together from the outlines of
the two (`ofTokens_append`). No rule of a header takes a token that can begin an item, so a form
that breaks off does so before the next item. Skipping starts to count brackets wherever the form
broke off; since the rest of a balanced stretch closes at least the brackets that it opens
(`Covered`), the count is back at zero when the stretch ends.
-/

namespace LetModules

theorem Token.closes_of_opens : ∀ {token : Token}, token.opens = true → token.closes = false
  | .punct mark, h => by cases mark <;> first | rfl | exact absurd h (by decide)

namespace Outline

/-- No part from the beginning closes more brackets than it opens, and all are closed at the end. -/
structure Balanced (tokens : List Token) : Prop where
  prefixes : ∀ start, start <+: tokens → start.countP (·.closes) ≤ start.countP (·.opens)
  total : tokens.countP (·.closes) = tokens.countP (·.opens)

instance (tokens : List Token) : Decidable (Balanced tokens) :=
  decidable_of_iff
    ((∀ start ∈ tokens.inits, start.countP (·.closes) ≤ start.countP (·.opens)) ∧
      tokens.countP (·.closes) = tokens.countP (·.opens))
    ⟨fun ⟨prefixes, total⟩ => ⟨fun _ h => prefixes _ ((List.mem_inits _ _).mpr h), total⟩,
      fun ⟨prefixes, total⟩ => ⟨fun _ h => prefixes _ ((List.mem_inits _ _).mp h), total⟩⟩

/-- The last token is no tier keyword. -/
def Untiered (tokens : List Lexeme) : Prop :=
  ∀ last, tokens.getLast? = some last → last.token.isTier = false

/-- The outlines say the same, up to what their problems are. -/
structure Alike (a b : Outline) : Prop where
  declarations : a.declarations = b.declarations
  imports : a.imports = b.imports
  problems : a.problems.length = b.problems.length

namespace Alike

theorem refl (a : Outline) : a.Alike a := ⟨rfl, rfl, rfl⟩

theorem append {a a' b b' : Outline} (h : a.Alike a') (h' : b.Alike b') :
    (a ++ b).Alike (a' ++ b') where
  declarations := by
    show a.declarations ++ b.declarations = a'.declarations ++ b'.declarations
    rw [h.declarations, h'.declarations]
  imports := by
    show a.imports ++ b.imports = a'.imports ++ b'.imports
    rw [h.imports, h'.imports]
  problems := by
    show (a.problems ++ b.problems).length = (a'.problems ++ b'.problems).length
    rw [List.length_append, List.length_append, h.problems, h'.problems]

end Alike

theorem append_assoc (a b c : Outline) : a ++ b ++ c = a ++ (b ++ c) := by
  show append (append a b) c = append a (append b c)
  simp [append]

/-- Wherever one starts, at least the brackets opened from there on are closed. -/
def Covered (tokens : List Lexeme) : Prop :=
  ∀ rest, rest <:+ tokens → rest.countP (·.token.opens) ≤ rest.countP (·.token.closes)

theorem Covered.suffix {tokens rest : List Lexeme} (covered : Covered tokens)
    (h : rest <:+ tokens) : Covered rest := fun _ h' => covered _ (h'.trans h)

theorem Untiered.suffix {tokens rest : List Lexeme} (untiered : Untiered tokens)
    (h : rest <:+ tokens) : Untiered rest := by
  obtain ⟨before, rfl⟩ := h
  intro last ends
  exact untiered last (by rw [List.getLast?_append, ends, Option.some_or])

/-- What a balanced stretch has not opened before, it opens later, and what it has is closed. -/
theorem Balanced.covered {tokens : List Lexeme} (balanced : Balanced (tokens.map (·.token))) :
    Covered tokens := by
  rintro rest ⟨before, rfl⟩
  have prefixes := balanced.prefixes (before.map (·.token))
    ((List.prefix_append before rest).map (·.token))
  have total := balanced.total
  rw [List.map_append, List.countP_append, List.countP_append] at total
  simp only [List.countP_map] at prefixes total
  simp only [Function.comp_def] at prefixes total
  omega

/-- At least the brackets that are open after a token are closed later. -/
theorem Covered.turn_add_le {depth : Nat} {first : Lexeme} {rest : List Lexeme}
    (covered : Covered rest) (closed : depth + (first :: rest).countP (·.token.opens) ≤
      (first :: rest).countP (·.token.closes)) :
    turn depth first.token + rest.countP (·.token.opens) ≤ rest.countP (·.token.closes) := by
  have later := covered _ (List.suffix_refl _)
  rw [List.countP_cons, List.countP_cons] at closed
  rw [turn]
  split
  · rename_i opening
    rw [if_pos opening, if_neg (by simp [Token.closes_of_opens opening])] at closed
    omega
  · rename_i opening
    rw [if_neg opening] at closed
    split
    · rename_i closing
      -- at depth zero the bracket is one that the rest does not need
      rw [if_pos closing] at closed
      omega
    · rename_i closing
      rw [if_neg closing] at closed
      exact closed

/-- A token that begins no item does not stand first because of what comes after. -/
theorem Fresh.not_first {tokens more : List Lexeme} (fresh : Fresh (more.map (·.token)))
    {token : Token} (plain : token.startsItem = false)
    (absent : ∀ span rest, tokens = ⟨token, span⟩ :: rest → False) (span : Span)
    (rest : List Lexeme) : tokens ++ more ≠ ⟨token, span⟩ :: rest := by
  intro first
  cases tokens with
  | nil => exact fresh.absent plain span rest first
  | cons l rest' =>
    obtain ⟨rfl, -⟩ := List.cons.inj first
    exact absent span rest' rfl

namespace Reader

/-- The parse of the same tokens with more tokens after them, if it does not read those. -/
def Parse.followedBy (more : List Lexeme) : Parse α → Parse α
  | .done value rest => .done value (rest ++ more)
  | .misfit expected rest => .misfit expected (rest ++ more)

theorem Parse.followedBy_map (more : List Lexeme) (f : α → β) (parse : Parse α) :
    (parse.map f).followedBy more = (parse.followedBy more).map f := by
  cases parse <;> rfl

theorem Parse.followedBy_bind {more : List Lexeme} {parse : Parse α}
    {next : α → List Lexeme → Parse β} (h : ∀ value rest, parse = .done value rest →
      next value (rest ++ more) = (next value rest).followedBy more) :
    (parse.followedBy more).bind next = (parse.bind next).followedBy more := by
  cases parse with
  | done value rest => exact h value rest rfl
  | misfit expected rest => rfl

variable {more : List Lexeme} (fresh : Fresh (more.map (·.token)))

include fresh

theorem expect_append {token : Token} (plain : token.startsItem = false) (expected : String) :
    ∀ tokens, expect token expected (tokens ++ more) =
      (expect token expected tokens).followedBy more
  | [] => by
    cases more with
    | nil => rfl
    | cons first rest =>
      have other : first.token ≠ token := by
        rintro rfl
        exact absurd (plain.symm.trans (fresh first.token rfl)) (by simp)
      show expect token expected (first :: rest) = .misfit expected (first :: rest)
      rw [expect, if_neg other]
  | first :: rest => by
    rw [List.cons_append, expect, expect]
    split <;> rfl

theorem name_append (expected : String) (tokens : List Lexeme) :
    name expected (tokens ++ more) = (name expected tokens).followedBy more := by
  fun_cases name expected tokens with
  | case1 name span rest => rfl
  | case2 tokens absent =>
    rw [name.eq_2 _ _ fun n => fresh.not_first rfl (absent n)]
    rfl

theorem semicolon_append (tokens : List Lexeme) :
    semicolon (tokens ++ more) = ((semicolon tokens).1, (semicolon tokens).2 ++ more) := by
  fun_cases semicolon tokens with
  | case1 span rest => rfl
  | case2 tokens absent => rw [semicolon.eq_2 _ (fresh.not_first rfl absent)]

theorem segments_append (tokens : List Lexeme) :
    segments (tokens ++ more) = (segments tokens).followedBy more := by
  fun_induction segments tokens with
  | case1 span name span' rest ih =>
    rw [Parse.followedBy_map, ← ih]
    rfl
  | case2 span rest absent =>
    rw [List.cons_append, segments.eq_2 _ _ fun n => fresh.not_first rfl (absent n)]
    rfl
  | case3 tokens _ absent =>
    have first := fresh.not_first rfl absent
    rw [segments.eq_3 _ (fun span _ _ _ => first span _) first]
    rfl

theorem path_append (tokens : List Lexeme) :
    path (tokens ++ more) = (path tokens).followedBy more := by
  fun_cases path tokens with
  | case1 name span rest =>
    rw [Parse.followedBy_map, ← segments_append fresh]
    rfl
  | case2 name span rest =>
    rw [Parse.followedBy_map, ← segments_append fresh]
    rfl
  | case3 tokens ident dotted =>
    rw [path.eq_3 _ (fun n => fresh.not_first rfl (ident n))
      fun n => fresh.not_first rfl (dotted n)]
    rfl

theorem items_append (tokens : List Lexeme) :
    items (tokens ++ more) = (items tokens).followedBy more := by
  fun_induction items tokens with
  | case1 => rfl
  | case2 _ _ _ _ _ _ rest item ih =>
    rw [Parse.followedBy_map, ← ih]
    rfl
  | case3 => rfl
  | case4 _ _ _ _ _ tokens comma brace =>
    rw [List.cons_append, List.cons_append, List.cons_append,
      items.eq_4 _ _ _ _ _ _ (fresh.not_first rfl comma) (fresh.not_first rfl brace)]
    rfl
  | case5 name span span' rest bound =>
    rw [List.cons_append, List.cons_append,
      items.eq_5 _ _ _ _ fun n => fresh.not_first rfl (bound n)]
    rfl
  | case6 _ _ item _ rest _ _ ih =>
    rw [Parse.followedBy_map, ← ih]
    rfl
  | case7 => rfl
  | case8 _ _ tokens comma brace _ asWord =>
    have renamed := fresh.not_first rfl asWord
    rw [List.cons_append, items.eq_8 _ _ _ (fun span _ _ _ => renamed span _) renamed
      (fresh.not_first rfl comma) (fresh.not_first rfl brace)]
    rfl
  | case9 tokens brace _ _ ident =>
    have first := fun n => fresh.not_first rfl (ident n)
    rw [items.eq_9 _ (fresh.not_first rfl brace) (fun n span _ _ _ _ => first n span _)
      (fun n span _ _ => first n span _) first]
    rfl

theorem importStatement_append (start : Span) (tokens : List Lexeme) :
    importStatement start (tokens ++ more) = (importStatement start tokens).followedBy more := by
  rw [importStatement, importStatement, expect_append fresh rfl]
  refine Parse.followedBy_bind fun _ rest _ => ?_
  rw [items_append fresh]
  refine Parse.followedBy_bind fun _ rest _ => ?_
  rw [expect_append fresh rfl]
  refine Parse.followedBy_bind fun _ rest _ => ?_
  rw [path_append fresh]
  refine Parse.followedBy_bind fun _ rest _ => ?_
  rw [semicolon_append fresh]
  rfl

theorem source_append (tokens : List Lexeme) :
    source (tokens ++ more) = (source tokens).followedBy more := by
  rw [source, source, path_append fresh]
  refine Parse.followedBy_bind fun _ rest _ => ?_
  rw [semicolon_append fresh]
  rfl

/-- Skipping from inside `depth` brackets ends before the items if at least these are closed. -/
theorem skipBody_append {tokens : List Lexeme} {depth : Nat} (covered : Covered tokens)
    (closed : depth + tokens.countP (·.token.opens) ≤ tokens.countP (·.token.closes)) :
    skipBody depth (tokens ++ more) = skipBody depth tokens ++ more := by
  induction tokens generalizing depth with
  | nil =>
    obtain rfl : depth = 0 := by simpa using closed
    cases more with
    | nil => rfl
    | cons first rest =>
      show skipBody 0 (first :: rest) = first :: rest
      rw [skipBody, if_pos (by simpa using fresh first.token rfl)]
  | cons first rest ih =>
    have later := covered.suffix (List.suffix_cons first rest)
    rw [List.cons_append, skipBody_cons, skipBody_cons]
    split
    · rfl
    · exact ih later (later.turn_add_le closed)

theorem skipBody_zero_append {tokens : List Lexeme} (covered : Covered tokens) :
    skipBody 0 (tokens ++ more) = skipBody 0 tokens ++ more :=
  skipBody_append fresh covered (by simpa using covered _ (List.suffix_refl _))

/-! Reading stops at a later place among the same tokens. -/

omit fresh

theorem Parse.suffix_map {parse : Parse α} {f : α → β} {tokens : List Lexeme}
    (h : parse.rest <:+ tokens) : (parse.map f).rest <:+ tokens := by
  rw [Parse.rest_map]
  exact h

theorem Parse.suffix_bind {parse : Parse α} {next : α → List Lexeme → Parse β}
    {tokens : List Lexeme} (h : parse.rest <:+ tokens)
    (h' : ∀ value rest, parse = .done value rest → (next value rest).rest <:+ rest) :
    (parse.bind next).rest <:+ tokens := by
  cases parse with
  | done value rest => exact (h' value rest rfl).trans h
  | misfit expected rest => exact h

theorem expect_suffix (token : Token) (expected : String) (tokens : List Lexeme) :
    (expect token expected tokens).rest <:+ tokens := by
  fun_cases expect token expected tokens with
  | case1 => exact List.suffix_refl _
  | case2 => exact List.suffix_cons _ _
  | case3 => exact List.suffix_refl _

theorem name_suffix (expected : String) (tokens : List Lexeme) :
    (name expected tokens).rest <:+ tokens := by
  fun_cases name expected tokens with
  | case1 => exact List.suffix_cons _ _
  | case2 => exact List.suffix_refl _

theorem semicolon_suffix (tokens : List Lexeme) : (semicolon tokens).2 <:+ tokens := by
  fun_cases semicolon tokens with
  | case1 => exact List.suffix_cons _ _
  | case2 => exact List.suffix_refl _

theorem segments_suffix (tokens : List Lexeme) : (segments tokens).rest <:+ tokens := by
  fun_induction segments tokens with
  | case1 _ _ _ _ ih => exact Parse.suffix_map (ih.trans (List.suffix_append [_, _] _))
  | case2 => exact List.suffix_cons _ _
  | case3 => exact List.suffix_refl _

theorem path_suffix (tokens : List Lexeme) : (path tokens).rest <:+ tokens := by
  fun_cases path tokens with
  | case1 _ _ rest =>
    exact Parse.suffix_map ((segments_suffix rest).trans (List.suffix_cons _ _))
  | case2 _ _ rest =>
    exact Parse.suffix_map ((segments_suffix rest).trans (List.suffix_cons _ _))
  | case3 => exact List.suffix_refl _

theorem items_suffix (tokens : List Lexeme) : (items tokens).rest <:+ tokens := by
  fun_induction items tokens with
  | case1 => exact List.suffix_cons _ _
  | case2 _ _ _ _ _ _ _ _ ih =>
    exact Parse.suffix_map (ih.trans (List.suffix_append [_, _, _, _] _))
  | case3 => exact List.suffix_append [_, _, _, _] _
  | case4 => exact List.suffix_append [_, _, _] _
  | case5 => exact List.suffix_append [_, _] _
  | case6 _ _ _ _ _ _ _ ih =>
    exact Parse.suffix_map (ih.trans (List.suffix_append [_, _] _))
  | case7 => exact List.suffix_append [_, _] _
  | case8 => exact List.suffix_cons _ _
  | case9 => exact List.suffix_refl _

theorem importStatement_suffix (start : Span) (tokens : List Lexeme) :
    (importStatement start tokens).rest <:+ tokens :=
  Parse.suffix_bind (expect_suffix _ _ _) fun _ _ _ =>
    Parse.suffix_bind (items_suffix _) fun _ _ _ =>
      Parse.suffix_bind (expect_suffix _ _ _) fun _ _ _ =>
        Parse.suffix_bind (path_suffix _) fun _ _ _ => semicolon_suffix _

theorem source_suffix (tokens : List Lexeme) : (source tokens).rest <:+ tokens :=
  Parse.suffix_bind (path_suffix _) fun _ _ _ => semicolon_suffix _

theorem skipBody_suffix (depth : Nat) (tokens : List Lexeme) :
    skipBody depth tokens <:+ tokens := by
  fun_induction skipBody depth tokens with
  | case1 => exact List.suffix_refl _
  | case2 => exact List.suffix_refl _
  | case3 _ _ _ _ _ ih => exact ih.trans (List.suffix_cons _ _)
  | case4 _ _ _ _ _ _ ih => exact ih.trans (List.suffix_cons _ _)
  | case5 _ _ _ _ _ _ ih => exact ih.trans (List.suffix_cons _ _)

theorem afterName_suffix (start : Span) (tier : Tier) (kind : DeclKind) (declared : String × Span)
    (tokens : List Lexeme) : (afterName start tier kind declared tokens).rest <:+ tokens := by
  fun_cases afterName start tier kind declared tokens with
  | case1 _ rest =>
    exact Parse.suffix_map ((source_suffix rest).trans (List.suffix_cons _ _))
  | case2 => exact skipBody_suffix _ _

theorem header_suffix (start : Span) (tier : Tier) (kind : DeclKind) (tokens : List Lexeme) :
    (header start tier kind tokens).rest <:+ tokens :=
  Parse.suffix_bind (name_suffix _ _) fun _ _ _ => afterName_suffix _ _ _ _ _

theorem settle_suffix (finish item : Span) (parse : Parse Outline) :
    (settle finish item parse).2 <:+ parse.rest := by
  fun_cases settle finish item parse with
  | case1 => exact List.suffix_refl _
  | case2 => exact List.suffix_refl _
  | case3 => exact skipBody_suffix _ _

theorem declaration_suffix (finish start item : Span) (tier : Tier) (kind : DeclKind)
    (rest : List Lexeme) : (declaration finish start item tier kind rest).2 <:+ rest :=
  (settle_suffix _ _ _).trans (Parse.suffix_map (header_suffix _ _ _ _))

theorem tiered_suffix (finish start : Span) (tier : Tier) (tokens : List Lexeme) :
    (tiered finish start tier tokens).2 <:+ tokens := by
  fun_cases tiered finish start tier tokens with
  | case1 => exact settle_suffix _ _ _
  | case2 => exact (declaration_suffix _ _ _ _ _ _).trans (List.suffix_cons _ _)
  | case3 => exact settle_suffix _ _ _

theorem form_suffix (finish : Span) (first : Lexeme) (rest : List Lexeme) :
    (form finish first rest).2 <:+ rest := by
  fun_cases form finish first rest with
  | case1 => exact (settle_suffix _ _ _).trans (Parse.suffix_map (importStatement_suffix _ _))
  | case2 => exact declaration_suffix _ _ _ _ _ _
  | case3 => exact tiered_suffix _ _ _ _
  | case4 => exact skipBody_suffix _ _

/-! A form of a covered stretch is the same when items come after the stretch. -/

include fresh

theorem afterName_append (start : Span) (tier : Tier) (kind : DeclKind) (declared : String × Span)
    {tokens : List Lexeme} (covered : Covered tokens) :
    afterName start tier kind declared (tokens ++ more) =
      (afterName start tier kind declared tokens).followedBy more := by
  fun_cases afterName start tier kind declared tokens with
  | case1 span rest =>
    rw [Parse.followedBy_map, ← source_append fresh]
    rfl
  | case2 tokens absent =>
    rw [afterName.eq_2 _ _ _ _ _ (fresh.not_first rfl absent), skipBody_zero_append fresh covered]
    rfl

theorem header_append (start : Span) (tier : Tier) (kind : DeclKind) {tokens : List Lexeme}
    (covered : Covered tokens) :
    header start tier kind (tokens ++ more) = (header start tier kind tokens).followedBy more := by
  rw [header, header, name_append fresh]
  refine Parse.followedBy_bind fun declared rest found => ?_
  have later := name_suffix "a declaration name" tokens
  rw [found] at later
  exact afterName_append fresh start tier kind declared (covered.suffix later)

omit fresh in
/-- With `more` after it, as without, a form says the same and ends in the same place. -/
structure Continues (more : List Lexeme) (longer shorter : Outline × List Lexeme) : Prop where
  outline : longer.1.Alike shorter.1
  rest : longer.2 = shorter.2 ++ more

/-- What breaks off is skipped as far, and reported as one problem. -/
theorem settle_append (finish finish' item : Span) {parse : Parse Outline}
    (covered : Covered parse.rest) :
    Continues more (settle finish item (parse.followedBy more)) (settle finish' item parse) := by
  have skipped := skipBody_zero_append fresh covered
  cases parse with
  | done outline rest => exact ⟨.refl _, rfl⟩
  | misfit expected rest =>
    rw [Parse.rest_misfit] at skipped
    cases rest with
    | nil =>
      cases more with
      | nil => exact ⟨⟨rfl, rfl, rfl⟩, rfl⟩
      | cons first rest => exact ⟨⟨rfl, rfl, rfl⟩, skipped⟩
    | cons found rest => exact ⟨⟨rfl, rfl, rfl⟩, skipped⟩

theorem declaration_append (finish finish' start item : Span) (tier : Tier) (kind : DeclKind)
    {rest : List Lexeme} (covered : Covered rest) :
    Continues more (declaration finish start item tier kind (rest ++ more))
      (declaration finish' start item tier kind rest) := by
  rw [declaration, declaration, header_append fresh _ _ _ covered, ← Parse.followedBy_map]
  exact settle_append fresh _ _ _ (covered.suffix (Parse.suffix_map (header_suffix _ _ _ _)))

theorem form_append (finish finish' : Span) {first : Lexeme} {rest : List Lexeme}
    (covered : Covered rest) (untiered : Untiered (first :: rest)) :
    Continues more (form finish first (rest ++ more)) (form finish' first rest) := by
  rw [form, form]
  split
  · rw [importStatement_append fresh, ← Parse.followedBy_map]
    exact settle_append fresh _ _ _ (covered.suffix (Parse.suffix_map (importStatement_suffix _ _)))
  · split
    · exact declaration_append fresh _ _ _ _ _ _ covered
    · rename_i tier _ given
      cases rest with
      | nil =>
        -- the form would end with the tier
        have plain := untiered first rfl
        rw [Token.isTier, given] at plain
        exact absurd plain (by simp)
      | cons second rest =>
        rw [List.cons_append, tiered, tiered]
        split
        · exact declaration_append fresh _ _ _ _ _ _ (covered.suffix (List.suffix_cons _ _))
        · exact @settle_append _ fresh finish finish' first.span
            (.misfit _ (second :: rest)) covered
    · exact ⟨⟨rfl, rfl, rfl⟩, skipBody_zero_append fresh covered⟩

theorem forms_append (finish finish' : Span) {tokens : List Lexeme} (covered : Covered tokens)
    (untiered : Untiered tokens) :
    (forms finish (tokens ++ more)).Alike (forms finish' tokens ++ forms finish more) := by
  fun_induction forms finish' tokens with
  | case1 => exact .refl _
  | case2 first rest step ih =>
    have later := covered.suffix (List.suffix_cons first rest)
    have ended := form_suffix finish' first rest
    obtain ⟨alike, left⟩ := form_append fresh finish finish' later untiered
    rw [List.cons_append, forms, left, append_assoc]
    exact alike.append (ih (later.suffix ended)
      (untiered.suffix (ended.trans (List.suffix_cons first rest))))

end Reader

open Reader

/-- The outline of a balanced stretch and the items after it. -/
theorem ofTokens_append {a b : List Lexeme} (balanced : Balanced (a.map (·.token)))
    (untiered : Untiered a) (fresh : Fresh (b.map (·.token))) :
    (ofTokens (a ++ b)).declarations = (ofTokens a).declarations ++ (ofTokens b).declarations ∧
      (ofTokens (a ++ b)).imports = (ofTokens a).imports ++ (ofTokens b).imports ∧
        (ofTokens (a ++ b)).problems.length =
          (ofTokens a).problems.length + (ofTokens b).problems.length := by
  have finish : forms (finishOf (a ++ b)) b = forms (finishOf b) b := by
    cases b with
    | nil => rw [forms, forms]
    | cons first rest =>
      have last := List.getLast?_append_of_ne_nil a (List.cons_ne_nil first rest)
      rw [finishOf, finishOf, last]
  have alike := forms_append fresh (finishOf (a ++ b)) (finishOf a) balanced.covered untiered
  rw [finish] at alike
  refine ⟨alike.declarations, alike.imports, alike.problems.trans ?_⟩
  exact List.length_append

/-- An import that breaks off at the next declaration, whose body then closes the brace of the
import. -/
theorem ofTokens_append_sample :
    let a : List Lexeme := [⟨.keyword .importWord, .ofLength 0 6⟩,
      ⟨.punct .leftBrace, .ofLength 7 1⟩, ⟨.ident "x", .ofLength 9 1⟩,
      ⟨.keyword .funWord, .ofLength 11 3⟩, ⟨.ident "f", .ofLength 15 1⟩,
      ⟨.punct .rightBrace, .ofLength 17 1⟩]
    let b : List Lexeme := [⟨.keyword .typeWord, .ofLength 19 4⟩, ⟨.ident "T", .ofLength 24 1⟩]
    (Balanced (a.map (·.token)) ∧ Untiered a ∧ Fresh (b.map (·.token))) ∧
      (ofTokens (a ++ b)).declarations = (ofTokens a).declarations ++ (ofTokens b).declarations ∧
        (ofTokens (a ++ b)).imports = (ofTokens a).imports ++ (ofTokens b).imports ∧
          (ofTokens (a ++ b)).problems.length =
            (ofTokens a).problems.length + (ofTokens b).problems.length := by
  intro a b
  have balanced : Balanced (a.map (·.token)) := by decide
  have untiered : Untiered a := by
    rintro last ⟨⟩
    rfl
  have fresh : Fresh (b.map (·.token)) := by
    rintro first ⟨⟩
    rfl
  exact ⟨⟨balanced, untiered, fresh⟩, ofTokens_append balanced untiered fresh⟩

end Outline

end LetModules
