import LetModules.Proofs.Outline.Grammar

/-!
The reader of outlines accepts exactly its grammar. Each reader is exact: what it reads without an
error is a phrase of the grammar, and it reads any such phrase in front of tokens that cannot be
part of it. So the outline of a list of tokens has no errors exactly if the tokens spell a row of
forms, and then it records those forms, in their order (`ofTokens_exact`).
-/

namespace LetModules

/-- The path without its place. -/
def ModulePath.unplaced (path : ModulePath) : ModulePath := { path with span := none }

/-- The item without its place. -/
def ImportItem.unplaced (item : ImportItem) : ImportItem := { item with span := none }

/-- The statement without places. -/
def ImportStatement.unplaced (statement : ImportStatement) : ImportStatement :=
  ⟨statement.path.unplaced, statement.items.map (·.unplaced), none⟩

/-- The header without places. -/
def DeclarationHeader.unplaced (header : DeclarationHeader) : DeclarationHeader :=
  { header with source := header.source.map (·.unplaced), span := none }

namespace Outline

theorem Fresh.absent {lexemes : List Lexeme} (fresh : Fresh (lexemes.map (·.token)))
    {token : Token} (plain : token.startsItem = false) (span : Span) (rest : List Lexeme) :
    lexemes ≠ ⟨token, span⟩ :: rest := by
  rintro rfl
  exact absurd (plain.symm.trans (fresh token rfl)) (by simp)

namespace Reader

theorem exists_lexeme {lexemes : List Lexeme} {token : Token} {after : List Token}
    (h : lexemes.map (·.token) = token :: after) :
    ∃ span rest, lexemes = ⟨token, span⟩ :: rest ∧ rest.map (·.token) = after := by
  obtain ⟨first, rest, rfl, rfl, left⟩ := List.map_eq_cons_iff.mp h
  exact ⟨first.span, rest, rfl, left⟩

theorem Parse.map_eq_done_iff {f : α → β} {parse : Parse α} {b : β} {rest : List Lexeme} :
    parse.map f = .done b rest ↔ ∃ a, parse = .done a rest ∧ f a = b := by
  cases parse with
  | done value left =>
    rw [Parse.map, Parse.done.injEq]
    constructor
    · rintro ⟨rfl, rfl⟩
      exact ⟨value, rfl, rfl⟩
    · rintro ⟨_, ⟨⟩, rfl⟩
      exact ⟨rfl, rfl⟩
  | misfit => simp [Parse.map]

theorem Parse.bind_eq_done_iff {parse : Parse α} {next : α → List Lexeme → Parse β} {b : β}
    {rest : List Lexeme} : parse.bind next = .done b rest ↔
      ∃ a middle, parse = .done a middle ∧ next a middle = .done b rest := by
  cases parse with
  | done value left =>
    constructor
    · exact fun h => ⟨value, left, rfl, h⟩
    · rintro ⟨_, _, ⟨⟩, h⟩
      exact h
  | misfit => simp [Parse.bind]

theorem skipBody_cons (depth : Nat) (first : Lexeme) (rest : List Lexeme) :
    skipBody depth (first :: rest) =
      if first.token.startsItem = true ∧ depth = 0 then first :: rest
      else skipBody (turn depth first.token) rest := by
  by_cases here : first.token.startsItem = true ∧ depth = 0
  · rw [if_pos here, skipBody, if_pos (by simp [here])]
  · rw [if_neg here, skipBody, if_neg (by simpa [and_comm] using here), turn]
    split
    · rfl
    · split <;> rfl

/-! What a reader reads is a phrase of the grammar, and the value that it finds is that of the
phrase. -/

theorem expect_sound {token : Token} {expected : String} {lexemes rest : List Lexeme}
    {span : Span} (h : expect token expected lexemes = .done span rest) :
    lexemes = ⟨token, span⟩ :: rest := by
  revert h
  fun_cases expect token expected lexemes with
  | case1 => simp
  | case2 found later same =>
    rintro ⟨⟩
    rw [← same]
  | case3 => simp

theorem name_sound {expected : String} {lexemes rest : List Lexeme} {named : String × Span}
    (h : name expected lexemes = .done named rest) :
    lexemes = ⟨.ident named.1, named.2⟩ :: rest := by
  revert h
  fun_cases name expected lexemes with
  | case1 name span later =>
    rintro ⟨⟩
    rfl
  | case2 => simp

theorem semicolon_sound (lexemes : List Lexeme) : ∃ present, lexemes.map (·.token) =
    optional present .semicolon ++ (semicolon lexemes).2.map (·.token) := by
  fun_cases semicolon lexemes with
  | case1 => exact ⟨true, rfl⟩
  | case2 => exact ⟨false, rfl⟩

theorem segments_sound {lexemes rest : List Lexeme} {more : List (String × Span)}
    (h : segments lexemes = .done more rest) : lexemes.map (·.token) =
      (more.map (·.1)).flatMap (fun name => [.punct .pathSep, .ident name]) ++
        rest.map (·.token) := by
  fun_induction segments lexemes generalizing more with
  | case1 span name span' later ih =>
    obtain ⟨more', read, rfl⟩ := Parse.map_eq_done_iff.mp h
    rw [List.map_cons, List.map_cons, ih read]
    rfl
  | case2 => exact absurd h (by simp)
  | case3 =>
    cases h
    rfl

theorem path_sound {lexemes rest : List Lexeme} {found : ModulePath × Span}
    (h : path lexemes = .done found rest) : ∃ form : PathForm,
      lexemes.map (·.token) = form.tokens ++ rest.map (·.token) ∧ found.1.unplaced = form.path := by
  revert h
  fun_cases path lexemes with
  | case1 name span later =>
    intro h
    obtain ⟨more, read, rfl⟩ := Parse.map_eq_done_iff.mp h
    exact ⟨⟨false, name, more.map (·.1)⟩, congrArg (_ :: ·) (segments_sound read), rfl⟩
  | case2 name span later =>
    intro h
    obtain ⟨more, read, rfl⟩ := Parse.map_eq_done_iff.mp h
    exact ⟨⟨true, name, more.map (·.1)⟩, congrArg (_ :: ·) (segments_sound read), rfl⟩
  | case3 => simp

theorem source_sound {lexemes rest : List Lexeme} {found : ModulePath × Span}
    (h : source lexemes = .done found rest) : ∃ (form : PathForm) (present : Bool),
      lexemes.map (·.token) = form.tokens ++ optional present .semicolon ++ rest.map (·.token) ∧
        found.1.unplaced = form.path := by
  obtain ⟨_, last, led, ended⟩ := Parse.bind_eq_done_iff.mp h
  obtain ⟨form, led, same⟩ := path_sound led
  obtain ⟨present, ends⟩ := semicolon_sound last
  obtain ⟨rfl, left⟩ := Parse.done.inj ended
  obtain rfl : (semicolon last).2 = rest := left
  exact ⟨form, present, by rw [led, ends, List.append_assoc], same⟩

theorem items_sound {lexemes rest : List Lexeme} {found : List ImportItem}
    (h : items lexemes = .done found rest) : ∃ form : Option ItemsForm, lexemes.map (·.token) =
      ItemsForm.tokens form ++ .punct .rightBrace :: rest.map (·.token) ∧
        found.map (·.unplaced) = ItemsForm.items form := by
  have goesOn : ∀ (first : ItemForm) {later : List Token} {more : List ImportItem},
      (∃ form, later = ItemsForm.tokens form ++ .punct .rightBrace :: rest.map (·.token) ∧
        more = ItemsForm.items form) →
      ∃ form, first.tokens ++ .punct .comma :: later =
          ItemsForm.tokens form ++ .punct .rightBrace :: rest.map (·.token) ∧
        first.item :: more = ItemsForm.items form := by
    rintro first _ _ ⟨form, rfl, rfl⟩
    refine ⟨some (.cons first form), ?_, (ItemsForm.items_cons first form).symm⟩
    rw [ItemsForm.tokens_cons, List.append_assoc]
    rfl
  fun_induction items lexemes generalizing found with
  | case1 =>
    cases h
    exact ⟨none, rfl, rfl⟩
  | case2 name _ _ bound =>
    rename_i ih
    obtain ⟨more, read, rfl⟩ := Parse.map_eq_done_iff.mp h
    exact goesOn ⟨name, some bound⟩ (ih read)
  | case3 name _ _ bound =>
    cases h
    exact ⟨some ⟨⟨name, some bound⟩, [], false⟩, rfl, rfl⟩
  | case4 => exact absurd h (by simp)
  | case5 => exact absurd h (by simp)
  | case6 name =>
    rename_i ih
    obtain ⟨more, read, rfl⟩ := Parse.map_eq_done_iff.mp h
    exact goesOn ⟨name, none⟩ (ih read)
  | case7 name =>
    cases h
    exact ⟨some ⟨⟨name, none⟩, [], false⟩, rfl, rfl⟩
  | case8 => exact absurd h (by simp)
  | case9 => exact absurd h (by simp)

theorem importStatement_sound {start : Span} {lexemes rest : List Lexeme}
    {statement : ImportStatement} (h : importStatement start lexemes = .done statement rest) :
    ∃ form path present, .keyword .importWord :: lexemes.map (·.token) =
      (Form.importing form path present).tokens ++ rest.map (·.token) ∧
        statement.unplaced = ⟨path.path, ItemsForm.items form, none⟩ := by
  obtain ⟨_, _, opened, h⟩ := Parse.bind_eq_done_iff.mp h
  obtain ⟨_, _, listed, h⟩ := Parse.bind_eq_done_iff.mp h
  obtain ⟨_, _, word, h⟩ := Parse.bind_eq_done_iff.mp h
  obtain ⟨_, last, led, found⟩ := Parse.bind_eq_done_iff.mp h
  obtain rfl := expect_sound opened
  obtain rfl := expect_sound word
  obtain ⟨form, listed, sameItems⟩ := items_sound listed
  obtain ⟨path, led, samePath⟩ := path_sound led
  obtain ⟨present, ended⟩ := semicolon_sound last
  obtain ⟨rfl, left⟩ := Parse.done.inj found
  obtain rfl : (semicolon last).2 = rest := left
  refine ⟨form, path, present, ?_, ?_⟩
  · rw [List.map_cons, listed, List.map_cons, led, ended]
    simp [Form.tokens]
  · rw [ImportStatement.unplaced, samePath, sameItems]

theorem skipBody_sound (depth : Nat) (lexemes : List Lexeme) : ∃ body,
    lexemes.map (·.token) = body ++ (skipBody depth lexemes).map (·.token) ∧
      Runs depth body ((skipBody depth lexemes).map (·.token)) := by
  induction lexemes generalizing depth with
  | nil => exact ⟨[], rfl, runs_nil_iff.mpr (by simp [skipBody])⟩
  | cons first rest ih =>
    rw [skipBody_cons]
    split
    · rename_i here
      refine ⟨[], rfl, runs_nil_iff.mpr fun token later begins => ?_⟩
      obtain ⟨rfl, -⟩ := List.cons.inj begins
      exact here
    · rename_i further
      obtain ⟨body, cut, runs⟩ := ih (turn depth first.token)
      refine ⟨first.token :: body, congrArg (first.token :: ·) cut, runs_cons_iff.mpr ⟨?_, runs⟩⟩
      exact fun starts zero => further ⟨starts, zero⟩

/-- After the keyword a header is the rest of a declaration or of a re-export. -/
theorem header_sound {start : Span} {tier : Tier} {kind : DeclKind} {lexemes rest : List Lexeme}
    {found : DeclarationHeader} (h : header start tier kind lexemes = .done found rest)
    (tier' : Option TierWord) (kind' : KindWord) : ∃ form : Form,
      form.Fits (rest.map (·.token)) ∧ TierWord.tokens tier' ++ kind'.token ::
        lexemes.map (·.token) = form.tokens ++ rest.map (·.token) := by
  obtain ⟨named, later, ident, ended⟩ := Parse.bind_eq_done_iff.mp h
  obtain rfl := name_sound ident
  rw [List.map_cons]
  revert ended
  fun_cases afterName start tier kind named later with
  | case1 span later =>
    intro ended
    obtain ⟨_, read, -⟩ := Parse.map_eq_done_iff.mp ended
    obtain ⟨path, present, cut, -⟩ := source_sound read
    refine ⟨.republishing tier' kind' named.1 path present, trivial, ?_⟩
    rw [List.map_cons, cut]
    simp [Form.tokens]
  | case2 later absent =>
    intro ended
    obtain rfl : skipBody 0 later = rest := by injection ended
    obtain ⟨body, cut, runs⟩ := skipBody_sound 0 later
    refine ⟨.declaring tier' kind' named.1 body, ⟨fun begins => ?_, runs⟩, ?_⟩
    · obtain ⟨_, rfl⟩ := List.head?_eq_some_iff.mp begins
      obtain ⟨span, left, same, -⟩ := exists_lexeme cut
      exact absent span left same
    · rw [cut]
      simp [Form.tokens]

theorem hasErrors_settle_misfit (finish item : Span) (expected : String) (rest : List Lexeme) :
    (settle finish item (.misfit expected rest)).1.hasErrors = true := by
  cases rest <;> rfl

theorem settle_sound {finish item : Span} {parse : Parse Outline}
    (fine : (settle finish item parse).1.hasErrors = false) :
    ∃ outline, parse = .done outline (settle finish item parse).2 := by
  cases parse with
  | done outline rest => exact ⟨outline, rfl⟩
  | misfit expected rest =>
    rw [hasErrors_settle_misfit] at fine
    exact absurd fine (by simp)

theorem exists_kindWord {token : Token} {kind : DeclKind} (given : kind? token = some kind) :
    ∃ word : KindWord, word.token = token ∧ word.kind = kind := by
  revert given
  fun_cases kind? token with
  | case1 => exact fun given => ⟨.funWord, rfl, Option.some.inj given⟩
  | case2 => exact fun given => ⟨.typeWord, rfl, Option.some.inj given⟩
  | case3 => simp

theorem exists_tierWord {token : Token} {tier : Tier} (given : token.tier? = some tier) :
    ∃ word : TierWord, .keyword word.keyword = token ∧ word.tier = tier := by
  cases token with
  | keyword word =>
    cases word with
    | privateWord => exact ⟨.privateWord, rfl, Option.some.inj given⟩
    | protectedWord => exact ⟨.protectedWord, rfl, Option.some.inj given⟩
    | internalWord => exact ⟨.internalWord, rfl, Option.some.inj given⟩
    | publicWord => exact ⟨.publicWord, rfl, Option.some.inj given⟩
    | exportWord => exact ⟨.exportWord, rfl, Option.some.inj given⟩
    | _ => exact absurd given (by simp [Token.tier?, Keyword.tier?])
  | _ => exact absurd given (by simp [Token.tier?])

theorem declaration_sound {finish start item : Span} {tier : Tier} {kind : DeclKind}
    {rest : List Lexeme}
    (fine : (declaration finish start item tier kind rest).1.hasErrors = false)
    (tier' : Option TierWord) (kind' : KindWord) : ∃ form : Form,
      form.Fits ((declaration finish start item tier kind rest).2.map (·.token)) ∧
        TierWord.tokens tier' ++ kind'.token :: rest.map (·.token) =
          form.tokens ++ (declaration finish start item tier kind rest).2.map (·.token) := by
  obtain ⟨outline, read⟩ := settle_sound fine
  obtain ⟨found, read, -⟩ := Parse.map_eq_done_iff.mp read
  exact header_sound read tier' kind'

/-- A form without errors is one of the grammar. -/
theorem form_sound {finish : Span} {first : Lexeme} {rest : List Lexeme}
    (fine : (form finish first rest).1.hasErrors = false) : ∃ f : Form,
      f.Fits ((form finish first rest).2.map (·.token)) ∧ (first :: rest).map (·.token) =
        f.tokens ++ (form finish first rest).2.map (·.token) := by
  revert fine
  fun_cases form finish first rest with
  | case1 word =>
    intro fine
    obtain ⟨outline, read⟩ := settle_sound fine
    obtain ⟨statement, read, -⟩ := Parse.map_eq_done_iff.mp read
    obtain ⟨items, path, present, cut, -⟩ := importStatement_sound read
    refine ⟨.importing items path present, trivial, ?_⟩
    rw [List.map_cons, word]
    exact cut
  | case2 _ kind given =>
    intro fine
    obtain ⟨word, same, -⟩ := exists_kindWord given
    rw [List.map_cons, ← same]
    exact declaration_sound fine none word
  | case3 _ tier given _ =>
    intro fine
    obtain ⟨tierWord, same, -⟩ := exists_tierWord given
    rw [List.map_cons, ← same]
    revert fine
    fun_cases tiered finish first.span tier rest with
    | case1 => exact fun fine => absurd fine (by simp [hasErrors_settle_misfit])
    | case2 second rest kind given =>
      intro fine
      obtain ⟨word, same, -⟩ := exists_kindWord given
      rw [List.map_cons, ← same]
      exact declaration_sound fine (some tierWord) word
    | case3 => exact fun fine => absurd fine (by simp [hasErrors_settle_misfit])
  | case4 => exact fun fine => absurd fine (by simp [ofProblem, hasErrors, SyntaxProblem.isError])

theorem hasErrors_append (a b : Outline) : (a ++ b).hasErrors = (a.hasErrors || b.hasErrors) :=
  List.any_append

theorem forms_sound {finish : Span} {lexemes : List Lexeme}
    (fine : (forms finish lexemes).hasErrors = false) :
    ∃ forms, Spells forms (lexemes.map (·.token)) := by
  fun_induction forms finish lexemes with
  | case1 => exact ⟨[], .nil⟩
  | case2 first rest step ih =>
    rw [hasErrors_append, Bool.or_eq_false_iff] at fine
    obtain ⟨f, fits, cut⟩ := form_sound fine.1
    obtain ⟨fs, spells⟩ := ih fine.2
    rw [cut]
    exact ⟨f :: fs, .cons fits spells⟩

/-! A reader reads any phrase of the grammar, in front of what is no part of it. -/

theorem expect_complete {token : Token} (expected : String) {lexemes : List Lexeme}
    {after : List Token} (h : lexemes.map (·.token) = token :: after) :
    ∃ span rest, expect token expected lexemes = .done span rest ∧ rest.map (·.token) = after := by
  obtain ⟨span, rest, rfl, left⟩ := exists_lexeme h
  exact ⟨span, rest, if_pos rfl, left⟩

theorem name_complete {named : String} (expected : String) {lexemes : List Lexeme}
    {after : List Token} (h : lexemes.map (·.token) = .ident named :: after) :
    ∃ span rest, name expected lexemes = .done (named, span) rest ∧
      rest.map (·.token) = after := by
  obtain ⟨span, rest, rfl, left⟩ := exists_lexeme h
  exact ⟨span, rest, rfl, left⟩

theorem semicolon_complete {present : Bool} {lexemes : List Lexeme} {after : List Token}
    (h : lexemes.map (·.token) = optional present .semicolon ++ after) (fresh : Fresh after) :
    (semicolon lexemes).2.map (·.token) = after := by
  cases present with
  | true =>
    obtain ⟨span, rest, rfl, left⟩ := exists_lexeme h
    exact left
  | false =>
    rw [semicolon.eq_2 _ (Fresh.absent (h ▸ fresh) rfl)]
    exact h

theorem segments_complete {more : List String} {lexemes : List Lexeme} {after : List Token}
    (h : lexemes.map (·.token) =
      more.flatMap (fun name => [.punct .pathSep, .ident name]) ++ after)
    (apart : after.head? ≠ some (.punct .pathSep)) : ∃ found rest,
      segments lexemes = .done found rest ∧ found.map (·.1) = more ∧
        rest.map (·.token) = after := by
  induction more generalizing lexemes with
  | nil =>
    have absent : ∀ span rest, lexemes ≠ ⟨.punct .pathSep, span⟩ :: rest := by
      rintro span rest rfl
      rw [List.flatMap_nil, List.nil_append] at h
      exact apart (by rw [← h]; rfl)
    exact ⟨[], lexemes, segments.eq_3 _ (fun span _ _ _ => absent span _) absent, rfl, h⟩
  | cons name more ih =>
    obtain ⟨_, _, rfl, h₁⟩ := exists_lexeme h
    obtain ⟨span, _, rfl, h₂⟩ := exists_lexeme h₁
    obtain ⟨found, rest, read, same, left⟩ := ih h₂
    refine ⟨(name, span) :: found, rest, ?_, congrArg (name :: ·) same, left⟩
    rw [segments, read]
    rfl

theorem path_complete {form : PathForm} {lexemes : List Lexeme} {after : List Token}
    (h : lexemes.map (·.token) = form.tokens ++ after)
    (apart : after.head? ≠ some (.punct .pathSep)) : ∃ found rest,
      path lexemes = .done found rest ∧ found.1.unplaced = form.path ∧
        rest.map (·.token) = after := by
  obtain ⟨dotted, first, more⟩ := form
  cases dotted with
  | false =>
    obtain ⟨span, _, rfl, h₁⟩ := exists_lexeme h
    obtain ⟨found, rest, read, rfl, left⟩ := segments_complete h₁ apart
    exact ⟨_, rest, congrArg (Parse.map (pathOf (first, span))) read, rfl, left⟩
  | true =>
    obtain ⟨span, _, rfl, h₁⟩ := exists_lexeme h
    obtain ⟨found, rest, read, rfl, left⟩ := segments_complete h₁ apart
    exact ⟨_, rest, congrArg (Parse.map (pathOf (first, span))) read, rfl, left⟩

theorem items_complete {form : Option ItemsForm} {lexemes : List Lexeme} {after : List Token}
    (h : lexemes.map (·.token) = ItemsForm.tokens form ++ .punct .rightBrace :: after) :
    ∃ found rest, items lexemes = .done found rest ∧
      found.map (·.unplaced) = ItemsForm.items form ∧ rest.map (·.token) = after := by
  induction form using ItemsForm.induction generalizing lexemes with
  | none =>
    obtain ⟨_, rest, rfl, left⟩ := exists_lexeme h
    exact ⟨[], rest, rfl, rfl, left⟩
  | last item =>
    obtain ⟨name, _ | bound⟩ := item
    · obtain ⟨_, _, rfl, h₁⟩ := exists_lexeme h
      obtain ⟨_, rest, rfl, left⟩ := exists_lexeme h₁
      exact ⟨_, rest, rfl, rfl, left⟩
    · obtain ⟨_, _, rfl, h₁⟩ := exists_lexeme h
      obtain ⟨_, _, rfl, h₂⟩ := exists_lexeme h₁
      obtain ⟨_, _, rfl, h₃⟩ := exists_lexeme h₂
      obtain ⟨_, rest, rfl, left⟩ := exists_lexeme h₃
      exact ⟨_, rest, rfl, rfl, left⟩
  | more item form ih =>
    rw [ItemsForm.tokens_cons, List.append_assoc] at h
    rw [ItemsForm.items_cons]
    obtain ⟨name, _ | bound⟩ := item
    · obtain ⟨span, _, rfl, h₁⟩ := exists_lexeme h
      obtain ⟨_, _, rfl, h₂⟩ := exists_lexeme h₁
      obtain ⟨found, rest, read, same, left⟩ := ih h₂
      exact ⟨⟨name, none, some span⟩ :: found, rest, congrArg (Parse.map (_ :: ·)) read,
        congrArg (ItemForm.item ⟨name, none⟩ :: ·) same, left⟩
    · obtain ⟨span, _, rfl, h₁⟩ := exists_lexeme h
      obtain ⟨_, _, rfl, h₂⟩ := exists_lexeme h₁
      obtain ⟨boundSpan, _, rfl, h₃⟩ := exists_lexeme h₂
      obtain ⟨_, _, rfl, h₄⟩ := exists_lexeme h₃
      obtain ⟨found, rest, read, same, left⟩ := ih h₄
      exact ⟨⟨name, some bound, some (span.join boundSpan)⟩ :: found, rest,
        congrArg (Parse.map (_ :: ·)) read, congrArg (ItemForm.item ⟨name, some bound⟩ :: ·) same,
        left⟩

theorem head?_optional_ne (present : Bool) {after : List Token} (fresh : Fresh after) :
    (optional present .semicolon ++ after).head? ≠ some (.punct .pathSep) := by
  cases present with
  | true => exact fun same => absurd (Option.some.inj same) (by simp)
  | false => exact fun same => absurd (fresh _ same) (by simp [Token.startsItem])

theorem importStatement_complete (start : Span) {form : Option ItemsForm} {path : PathForm}
    {present : Bool} {lexemes : List Lexeme} {after : List Token} (fresh : Fresh after)
    (h : .keyword .importWord :: lexemes.map (·.token) =
      (Form.importing form path present).tokens ++ after) : ∃ statement rest,
      importStatement start lexemes = .done statement rest ∧
        statement.unplaced = ⟨path.path, ItemsForm.items form, none⟩ ∧
          rest.map (·.token) = after := by
  simp only [Form.tokens, List.cons_append, List.append_assoc, List.cons.injEq, true_and] at h
  obtain ⟨_, _, opened, h⟩ := expect_complete "`\x7b`" h
  obtain ⟨listed, _, items, same, h⟩ := items_complete h
  obtain ⟨_, _, word, h⟩ := expect_complete "`from`" h
  obtain ⟨led, last, leads, same', h⟩ := path_complete h (head?_optional_ne present fresh)
  refine ⟨⟨led.1, listed, some (start.join ((semicolon last).1.getD led.2))⟩,
    (semicolon last).2, ?_, ?_, semicolon_complete h fresh⟩
  · rw [importStatement, opened, Parse.bind, items, Parse.bind, word, Parse.bind, leads]
    rfl
  · rw [ImportStatement.unplaced, same, same']

theorem skipBody_complete {depth : Nat} {body after : List Token} {lexemes : List Lexeme}
    (h : lexemes.map (·.token) = body ++ after) (runs : Runs depth body after) :
    (skipBody depth lexemes).map (·.token) = after := by
  induction body generalizing depth lexemes with
  | nil =>
    cases lexemes with
    | nil => exact h
    | cons first rest =>
      rw [skipBody_cons, if_pos (runs_nil_iff.mp runs first.token _ h.symm)]
      exact h
  | cons token body ih =>
    obtain ⟨span, rest, rfl, h₁⟩ := exists_lexeme h
    obtain ⟨first, goesOn⟩ := runs_cons_iff.mp runs
    rw [skipBody_cons, if_neg fun here => first here.1 here.2]
    exact ih h₁ goesOn

/-- The header of a re-export, after its keyword. -/
theorem header_complete_from (start : Span) (tier : Tier) (kind : DeclKind) {name : String}
    {form : PathForm} {present : Bool} {lexemes : List Lexeme} {after : List Token}
    (fresh : Fresh after) (h : lexemes.map (·.token) = .ident name :: .keyword .fromWord ::
      (form.tokens ++ optional present .semicolon) ++ after) : ∃ found rest,
      header start tier kind lexemes = .done found rest ∧
        found.unplaced = ⟨name, tier, .reexport, some form.path, none⟩ ∧
          rest.map (·.token) = after := by
  simp only [List.append_assoc, List.cons_append] at h
  obtain ⟨span, _, named, h₁⟩ := name_complete "a declaration name" h
  obtain ⟨_, _, rfl, h₂⟩ := exists_lexeme h₁
  obtain ⟨led, last, leads, same, h₃⟩ := path_complete h₂ (head?_optional_ne present fresh)
  refine ⟨⟨name, tier, .reexport, some led.1,
    some (start.join ((semicolon last).1.getD led.2))⟩, (semicolon last).2, ?_, ?_,
    semicolon_complete h₃ fresh⟩
  · rw [header, named, Parse.bind, afterName, source, leads]
    rfl
  · rw [DeclarationHeader.unplaced, Option.map_some, same]

/-- The header of a declaration with a body, after its keyword. -/
theorem header_complete_body (start : Span) (tier : Tier) (kind : DeclKind) {name : String}
    {body after : List Token} {lexemes : List Lexeme}
    (plain : body.head? ≠ some (.keyword .fromWord)) (runs : Runs 0 body after)
    (h : lexemes.map (·.token) = .ident name :: body ++ after) : ∃ found rest,
      header start tier kind lexemes = .done found rest ∧
        found.unplaced = ⟨name, tier, kind, none, none⟩ ∧ rest.map (·.token) = after := by
  obtain ⟨span, later, named, h⟩ := name_complete "a declaration name" h
  have absent : ∀ span rest, later ≠ ⟨.keyword .fromWord, span⟩ :: rest := by
    rintro span rest rfl
    cases body with
    | nil => exact absurd (runs.ends _ _ h.symm).1 (by simp [Token.startsItem, Keyword.startsItem])
    | cons token body =>
      obtain ⟨rfl, -⟩ := List.cons.inj h
      exact plain rfl
  refine ⟨⟨name, tier, kind, none, some (start.join span)⟩, skipBody 0 later, ?_, rfl,
    skipBody_complete h runs⟩
  rw [header, named, Parse.bind, afterName.eq_2 _ _ _ _ _ absent]

/-- A form that begins with the keywords of a declaration is read as one. -/
theorem form_eq_declaration (finish : Span) {first : Lexeme} {rest : List Lexeme}
    {tier : Option TierWord} {kind : KindWord} {after : List Token}
    (h : (first :: rest).map (·.token) = TierWord.tokens tier ++ kind.token :: after) :
    ∃ start item later, form finish first rest =
      declaration finish start item (TierWord.tierOf tier) kind.kind later ∧
        later.map (·.token) = after := by
  cases tier with
  | none =>
    obtain ⟨span, _, same, left⟩ := exists_lexeme h
    obtain ⟨rfl, rfl⟩ := List.cons.inj same
    refine ⟨span, span, rest, ?_, left⟩
    cases kind <;> rfl
  | some word =>
    obtain ⟨span, _, same, h⟩ := exists_lexeme h
    obtain ⟨rfl, rfl⟩ := List.cons.inj same
    obtain ⟨span', later, rfl, left⟩ := exists_lexeme h
    refine ⟨span, span', later, ?_, left⟩
    cases word <;> cases kind <;> rfl

/-- What reading the form `f` in front of `after` comes to. -/
structure Records (f : Form) (after : List Token) (read : Outline × List Lexeme) : Prop where
  fine : read.1.hasErrors = false
  imports : read.1.imports.map (·.unplaced) = f.statement?.toList
  declarations : read.1.declarations.map (·.unplaced) = f.header?.toList
  rest : read.2.map (·.token) = after

theorem records_declaration {finish start item : Span} {tier : Tier} {kind : DeclKind}
    {lexemes : List Lexeme} {f : Form} {after : List Token}
    {found : DeclarationHeader} {rest : List Lexeme}
    (read : header start tier kind lexemes = .done found rest)
    (none : f.statement? = none) (same : f.header? = some found.unplaced)
    (left : rest.map (·.token) = after) :
    Records f after (declaration finish start item tier kind lexemes) := by
  rw [declaration, read]
  refine ⟨rfl, ?_, ?_, left⟩
  · rw [none]
    rfl
  · rw [same]
    rfl

/-- Each form of the grammar is recorded. -/
theorem form_complete (finish : Span) {f : Form} {after : List Token} (fits : f.Fits after)
    (fresh : Fresh after) {first : Lexeme} {rest : List Lexeme}
    (h : (first :: rest).map (·.token) = f.tokens ++ after) :
    Records f after (form finish first rest) := by
  cases f with
  | importing items path present =>
    obtain ⟨span, _, same, -⟩ := exists_lexeme h
    obtain ⟨rfl, rfl⟩ := List.cons.inj same
    obtain ⟨statement, later, read, same, left⟩ := importStatement_complete span fresh h
    rw [form, if_pos rfl, read]
    have kept : importOutline statement = .ofImport statement ∨ ∃ span,
        importOutline statement = ⟨[], [statement], [.nothingImported span]⟩ := by
      fun_cases importOutline statement with
      | case1 span => exact .inr ⟨span, rfl⟩
      | case2 => exact .inl rfl
    rcases kept with kept | ⟨span, kept⟩
    · rw [Parse.map, kept]
      exact ⟨rfl, congrArg (fun s => [s]) same, rfl, left⟩
    · rw [Parse.map, kept]
      exact ⟨rfl, congrArg (fun s => [s]) same, rfl, left⟩
  | republishing tier kind name path present =>
    rw [Form.tokens, List.append_assoc] at h
    obtain ⟨start, item, later, read, h⟩ := form_eq_declaration finish h
    obtain ⟨found, last, header, same, left⟩ :=
      header_complete_from start (TierWord.tierOf tier) kind.kind fresh h
    rw [read]
    exact records_declaration header rfl (congrArg some same.symm) left
  | declaring tier kind name body =>
    rw [Form.tokens, List.append_assoc] at h
    obtain ⟨start, item, later, read, h⟩ := form_eq_declaration finish h
    obtain ⟨found, last, header, same, left⟩ :=
      header_complete_body start (TierWord.tierOf tier) kind.kind fits.1 fits.2 h
    rw [read]
    exact records_declaration header rfl (congrArg some same.symm) left

theorem filterMap_cons_eq (f : α → Option β) (a : α) (entries : List α) :
    (a :: entries).filterMap f = (f a).toList ++ entries.filterMap f := by
  rw [List.filterMap_cons]
  cases f a <;> rfl

theorem forms_complete (finish : Span) {fs : List Form} {tokens : List Token}
    (spells : Spells fs tokens) {lexemes : List Lexeme} (h : lexemes.map (·.token) = tokens) :
    (forms finish lexemes).hasErrors = false ∧
      (forms finish lexemes).imports.map (·.unplaced) = fs.filterMap Form.statement? ∧
        (forms finish lexemes).declarations.map (·.unplaced) = fs.filterMap Form.header? := by
  induction spells generalizing lexemes with
  | nil =>
    obtain rfl := List.map_eq_nil_iff.mp h
    rw [forms]
    exact ⟨rfl, rfl, rfl⟩
  | @cons f fs after fits spells ih =>
    obtain ⟨_, _, begins, -⟩ := f.exists_first
    obtain ⟨_, rest, rfl, -⟩ := exists_lexeme (h.trans (congrArg (· ++ after) begins))
    have recorded := form_complete finish fits spells.fresh h
    obtain ⟨fine, imports, declarations⟩ := ih recorded.rest
    rw [forms, hasErrors_append, recorded.fine, fine]
    refine ⟨rfl, ?_, ?_⟩
    · rw [filterMap_cons_eq, ← recorded.imports, ← imports]
      exact List.map_append
    · rw [filterMap_cons_eq, ← recorded.declarations, ← declarations]
      exact List.map_append

end Reader

open Reader

/-- The outline of a list of tokens has no errors exactly if the tokens spell forms of the grammar,
and whatever forms they spell, these are what the outline records. -/
theorem ofTokens_exact (lexemes : List Lexeme) :
    ((ofTokens lexemes).hasErrors = false ↔ ∃ forms, Spells forms (lexemes.map (·.token))) ∧
      ∀ forms, Spells forms (lexemes.map (·.token)) →
        (ofTokens lexemes).imports.map (·.unplaced) = forms.filterMap Form.statement? ∧
          (ofTokens lexemes).declarations.map (·.unplaced) = forms.filterMap Form.header? :=
  ⟨⟨forms_sound, fun ⟨_, spells⟩ => (forms_complete _ spells rfl).1⟩,
    fun _ spells => (forms_complete _ spells rfl).2⟩

end Outline

end LetModules
