import LetModules.Proofs.Outline.Exact
import LetModules.Proofs.Token.Printing
import Mathlib.Data.List.Forall2

/-!
Outlines and the places in them. Reading an outline asks for the kinds and the payloads of tokens
only: it does not look at where they stand, nor into string literals, and the places that it records
are those of tokens, joined. So what relates the places of two lists of tokens relates the places of
their outlines (`related_ofTokens`), as long as joining places keeps the relation.
-/

namespace LetModules

/-- A relation of places that joining and going to the end keep. -/
structure Congruent (r : Span → Span → Prop) : Prop where
  join {a a' b b' : Span} : r a a' → r b b' → r (a.join b) (a'.join b')
  finish {a a' : Span} : r a a' → r (.point a.stop) (.point a'.stop)
  origin : r (.point 0) (.point 0)

/-- The token without the inside of a string literal. -/
def Token.shell : Token → Token
  | .text _ => .text ""
  | token => token

/-- The same token, up to the inside of a string literal, at related places. -/
inductive Lexeme.Related (r : Span → Span → Prop) : Lexeme → Lexeme → Prop
  | same {token : Token} {a b : Span} : r a b → Related r ⟨token, a⟩ ⟨token, b⟩
  | text {body body' : String} {a b : Span} : r a b → Related r ⟨.text body, a⟩ ⟨.text body', b⟩

structure ModulePath.Related (r : Span → Span → Prop) (a b : ModulePath) : Prop where
  segments : a.segments = b.segments
  span : Option.Rel r a.span b.span

structure ImportItem.Related (r : Span → Span → Prop) (a b : ImportItem) : Prop where
  name : a.name = b.name
  boundAs : a.boundAs = b.boundAs
  span : Option.Rel r a.span b.span

structure ImportStatement.Related (r : Span → Span → Prop) (a b : ImportStatement) : Prop where
  path : a.path.Related r b.path
  items : List.Forall₂ (ImportItem.Related r) a.items b.items
  span : Option.Rel r a.span b.span

structure DeclarationHeader.Related (r : Span → Span → Prop) (a b : DeclarationHeader) : Prop where
  name : a.name = b.name
  tier : a.tier = b.tier
  kind : a.kind = b.kind
  source : Option.Rel (ModulePath.Related r) a.source b.source
  span : Option.Rel r a.span b.span

/-- Problems that are worded alike, at related places. -/
inductive SyntaxProblem.Related (r : Span → Span → Prop) : SyntaxProblem → SyntaxProblem → Prop
  | strayToken {found found' : Token} {a b : Span} : Lexeme.Related r ⟨found, a⟩ ⟨found', b⟩ →
      Related r (.strayToken found a) (.strayToken found' b)
  | unexpected {expected : String} {found found' : Token} {a b : Span} {item item' : Option Span} :
      Lexeme.Related r ⟨found, a⟩ ⟨found', b⟩ → Option.Rel r item item' →
        Related r (.unexpected expected (some found) a item)
          (.unexpected expected (some found') b item')
  | finished {expected : String} {finish finish' : Span} {item item' : Option Span} :
      r finish finish' → Option.Rel r item item' →
        Related r (.unexpected expected none finish item) (.unexpected expected none finish' item')
  | nothingImported {a b : Span} : r a b → Related r (.nothingImported a) (.nothingImported b)

/-- Outlines that say the same, at related places. -/
structure Outline.Related (r : Span → Span → Prop) (a b : Outline) : Prop where
  declarations : List.Forall₂ (DeclarationHeader.Related r) a.declarations b.declarations
  imports : List.Forall₂ (ImportStatement.Related r) a.imports b.imports
  problems : List.Forall₂ (SyntaxProblem.Related r) a.problems b.problems

namespace Outline.Reader

variable {r : Span → Span → Prop}

/-- Tokens that are read alike. -/
abbrev Same (r : Span → Span → Prop) : List Lexeme → List Lexeme → Prop :=
  List.Forall₂ (Lexeme.Related r)

/-- Both found related values, or both came upon a misfit in place of the same thing. -/
inductive Parse.Related (r : Span → Span → Prop) (q : α → α → Prop) : Parse α → Parse α → Prop
  | done {value value' : α} {rest rest' : List Lexeme} : q value value' → Same r rest rest' →
      Related r q (.done value rest) (.done value' rest')
  | misfit {expected : String} {rest rest' : List Lexeme} : Same r rest rest' →
      Related r q (.misfit expected rest) (.misfit expected rest')

theorem Parse.Related.map {q : α → α → Prop} {q' : β → β → Prop} {parse parse' : Parse α}
    (h : parse.Related r q parse') {f f' : α → β} (step : ∀ {a a'}, q a a' → q' (f a) (f' a')) :
    (parse.map f).Related r q' (parse'.map f') := by
  cases h with
  | done value rest => exact .done (step value) rest
  | misfit rest => exact .misfit rest

theorem Parse.Related.bind {q : α → α → Prop} {q' : β → β → Prop} {parse parse' : Parse α}
    (h : parse.Related r q parse') {next next' : α → List Lexeme → Parse β}
    (step : ∀ {a a' rest rest'}, q a a' → Same r rest rest' →
      (next a rest).Related r q' (next' a' rest')) :
    (parse.bind next).Related r q' (parse'.bind next') := by
  cases h with
  | done value rest => exact step value rest
  | misfit rest => exact .misfit rest

/-- Names that are the same, at related places. -/
abbrev Named (r : Span → Span → Prop) (a b : String × Span) : Prop := a.1 = b.1 ∧ r a.2 b.2

variable {tokens tokens' : List Lexeme}

theorem related_expect {token : Token} (noText : ∀ body, token ≠ .text body) (expected : String)
    (h : Same r tokens tokens') :
    (expect token expected tokens).Related r r (expect token expected tokens') := by
  cases h with
  | nil => exact .misfit .nil
  | cons first rest =>
    cases first with
    | same place =>
      rw [expect, expect]
      dsimp only
      split
      · exact .done place rest
      · exact .misfit (.cons (.same place) rest)
    | text place =>
      rw [expect, expect, if_neg fun same => noText _ same.symm,
        if_neg fun same => noText _ same.symm]
      exact .misfit (.cons (.text place) rest)

/-- What the one list does not begin with, the other does not either. -/
theorem absent_of_same {token : Token} (noText : ∀ body, token ≠ .text body)
    (h : Same r tokens tokens') (absent : ∀ span rest, tokens = ⟨token, span⟩ :: rest → False)
    (span : Span) (rest : List Lexeme) : tokens' = ⟨token, span⟩ :: rest → False := by
  rintro rfl
  rcases h with _ | ⟨place | place, more⟩
  · exact absent _ _ rfl
  · exact noText _ rfl

theorem related_name (expected : String) (h : Same r tokens tokens') :
    (name expected tokens).Related r (Named r) (name expected tokens') := by
  fun_cases name expected tokens with
  | case1 name span rest =>
    rcases h with _ | ⟨⟨place⟩, rest⟩
    exact .done ⟨rfl, place⟩ rest
  | case2 tokens none_such =>
    rw [name.eq_2 _ _ fun name => absent_of_same (by simp) h (none_such name)]
    exact .misfit h

theorem related_semicolon (h : Same r tokens tokens') :
    Option.Rel r (semicolon tokens).1 (semicolon tokens').1 ∧
      Same r (semicolon tokens).2 (semicolon tokens').2 := by
  fun_cases semicolon tokens with
  | case1 span rest =>
    rcases h with _ | ⟨⟨place⟩, rest⟩
    exact ⟨.some place, rest⟩
  | case2 tokens none_such =>
    rw [semicolon.eq_2 _ (absent_of_same (by simp) h none_such)]
    exact ⟨.none, h⟩

theorem related_segments (h : Same r tokens tokens') :
    (segments tokens).Related r (List.Forall₂ (Named r)) (segments tokens') := by
  fun_induction segments tokens generalizing tokens' with
  | case1 _ name _ rest ih =>
    rcases h with _ | ⟨⟨place⟩, _ | ⟨⟨place'⟩, more⟩⟩
    rw [segments]
    exact (ih more).map fun h => .cons ⟨rfl, place'⟩ h
  | case2 _ rest none_such =>
    rcases h with _ | ⟨⟨place⟩, more⟩
    rw [segments.eq_2 _ _ fun name => absent_of_same (by simp) more (none_such name)]
    exact .misfit more
  | case3 tokens _ none_such =>
    have none_there := absent_of_same (by simp) h none_such
    rw [segments.eq_3 _ (fun _ _ _ _ => none_there _ _) none_there]
    exact .done .nil h

theorem related_skipBody (depth : Nat) (h : Same r tokens tokens') :
    Same r (skipBody depth tokens) (skipBody depth tokens') := by
  induction h generalizing depth with
  | nil => exact .nil
  | @cons first first' rest rest' place more ih =>
    obtain ⟨starts, opens, closes⟩ : first.token.startsItem = first'.token.startsItem ∧
        first.token.opens = first'.token.opens ∧ first.token.closes = first'.token.closes := by
      cases place <;> exact ⟨rfl, rfl, rfl⟩
    rw [skipBody, skipBody, starts, opens, closes]
    split
    · exact .cons place more
    · split
      · exact ih _
      · split <;> exact ih _

/-- The last elements of related lists are related. -/
theorem rel_getLast? {q : α → α → Prop} {l l' : List α} (h : List.Forall₂ q l l') :
    Option.Rel q l.getLast? l'.getLast? := by
  induction h with
  | nil => exact .none
  | cons first more ih =>
    cases more with
    | nil => exact .some first
    | cons _ _ => simpa only [List.getLast?_cons_cons] using ih

theorem rel_getD {q : α → α → Prop} {a b : Option α} (h : Option.Rel q a b) {d d' : α}
    (h' : q d d') : q (a.getD d) (b.getD d') := by
  cases h with
  | some same => exact same
  | none => exact h'

theorem rel_map {q : α → α → Prop} {q' : β → β → Prop} {a b : Option α} (h : Option.Rel q a b)
    {f : α → β} (step : ∀ {x y}, q x y → q' (f x) (f y)) :
    Option.Rel q' (a.map f) (b.map f) := by
  cases h with
  | some same => exact .some (step same)
  | none => exact .none

section

variable (congruent : Congruent r)

include congruent

theorem related_pathOf {first first' : String × Span} {more more' : List (String × Span)}
    (h : Named r first first') (h' : List.Forall₂ (Named r) more more') :
    (pathOf first more).1.Related r (pathOf first' more').1 ∧
      r (pathOf first more).2 (pathOf first' more').2 := by
  have names : more.map (·.1) = more'.map (·.1) := by
    induction h' with
    | nil => rfl
    | cons same _ ih => rw [List.map_cons, List.map_cons, same.1, ih]
  have last : r ((more.getLast?.map (·.2)).getD first.2)
      ((more'.getLast?.map (·.2)).getD first'.2) :=
    rel_getD (rel_map (rel_getLast? h') And.right) h.2
  have span := congruent.join h.2 last
  exact ⟨⟨congrArg₂ List.cons h.1 names, .some span⟩, span⟩

theorem related_path (h : Same r tokens tokens') :
    (path tokens).Related r (fun a b => a.1.Related r b.1 ∧ r a.2 b.2) (path tokens') := by
  fun_cases path tokens with
  | case1 name _ rest =>
    rcases h with _ | ⟨⟨place⟩, rest⟩
    exact (related_segments rest).map (related_pathOf congruent ⟨rfl, place⟩)
  | case2 name _ rest =>
    rcases h with _ | ⟨⟨place⟩, rest⟩
    exact (related_segments rest).map (related_pathOf congruent ⟨rfl, place⟩)
  | case3 tokens none_such none_such' =>
    rw [path.eq_3 _ (fun name => absent_of_same (by simp) h (none_such name))
      fun name => absent_of_same (by simp) h (none_such' name)]
    exact .misfit h

theorem related_items (h : Same r tokens tokens') :
    (items tokens).Related r (List.Forall₂ (ImportItem.Related r)) (items tokens') := by
  fun_induction items tokens generalizing tokens' with
  | case1 =>
    rcases h with _ | ⟨⟨_⟩, rest⟩
    exact .done .nil rest
  | case2 =>
    rename_i ih
    rcases h with _ | ⟨⟨place⟩, _ | ⟨⟨_⟩, _ | ⟨⟨place'⟩, _ | ⟨⟨_⟩, rest⟩⟩⟩⟩
    rw [items]
    exact (ih rest).map fun h => .cons ⟨rfl, rfl, .some (congruent.join place place')⟩ h
  | case3 =>
    rcases h with _ | ⟨⟨place⟩, _ | ⟨⟨_⟩, _ | ⟨⟨place'⟩, _ | ⟨⟨_⟩, rest⟩⟩⟩⟩
    exact .done (.cons ⟨rfl, rfl, .some (congruent.join place place')⟩ .nil) rest
  | case4 _ _ _ _ _ tokens noComma noBrace =>
    rcases h with _ | ⟨⟨place⟩, _ | ⟨⟨_⟩, _ | ⟨⟨place'⟩, rest⟩⟩⟩
    rw [items.eq_4 _ _ _ _ _ _ (absent_of_same (by simp) rest noComma)
      (absent_of_same (by simp) rest noBrace)]
    exact .misfit rest
  | case5 _ _ _ rest noName =>
    rcases h with _ | ⟨⟨place⟩, _ | ⟨⟨_⟩, rest⟩⟩
    rw [items.eq_5 _ _ _ _ fun name => absent_of_same (by simp) rest (noName name)]
    exact .misfit rest
  | case6 =>
    rename_i ih
    rcases h with _ | ⟨⟨place⟩, _ | ⟨⟨_⟩, rest⟩⟩
    rw [items]
    exact (ih rest).map fun h => .cons ⟨rfl, rfl, .some place⟩ h
  | case7 =>
    rcases h with _ | ⟨⟨place⟩, _ | ⟨⟨_⟩, rest⟩⟩
    exact .done (.cons ⟨rfl, rfl, .some place⟩ .nil) rest
  | case8 _ _ tokens noComma noBrace _ noAs =>
    rcases h with _ | ⟨⟨place⟩, rest⟩
    have noAs' := absent_of_same (by simp) rest noAs
    rw [items.eq_8 _ _ _ (fun _ _ _ _ => noAs' _ _) noAs' (absent_of_same (by simp) rest noComma)
      (absent_of_same (by simp) rest noBrace)]
    exact .misfit rest
  | case9 tokens noBrace _ _ noName =>
    have noName' := fun name => absent_of_same (by simp) h (noName name)
    rw [items.eq_9 _ (absent_of_same (by simp) h noBrace) (fun _ _ _ _ _ _ => noName' _ _ _)
      (fun _ _ _ _ => noName' _ _ _) noName']
    exact .misfit h

theorem related_importStatement {start start' : Span} (place : r start start')
    (h : Same r tokens tokens') :
    (importStatement start tokens).Related r (ImportStatement.Related r)
      (importStatement start' tokens') := by
  refine (related_expect (by simp) _ h).bind fun _ rest => ?_
  refine (related_items congruent rest).bind fun items rest => ?_
  refine (related_expect (by simp) _ rest).bind fun _ rest => ?_
  refine (related_path congruent rest).bind fun path rest => ?_
  obtain ⟨stop, rest⟩ := related_semicolon rest
  exact .done ⟨path.1, items, .some (congruent.join place (rel_getD stop path.2))⟩ rest

theorem related_source (h : Same r tokens tokens') :
    (source tokens).Related r (fun a b => a.1.Related r b.1 ∧ r a.2 b.2) (source tokens') := by
  refine (related_path congruent h).bind fun path rest => ?_
  obtain ⟨stop, rest⟩ := related_semicolon rest
  exact .done ⟨path.1, rel_getD stop path.2⟩ rest

theorem related_afterName {start start' : Span} (place : r start start') (tier : Tier)
    (kind : DeclKind) {declared declared' : String × Span} (named : Named r declared declared')
    (h : Same r tokens tokens') :
    (afterName start tier kind declared tokens).Related r (DeclarationHeader.Related r)
      (afterName start' tier kind declared' tokens') := by
  fun_cases afterName start tier kind declared tokens with
  | case1 _ rest =>
    rcases h with _ | ⟨⟨_⟩, rest⟩
    exact (related_source congruent rest).map fun found =>
      ⟨named.1, rfl, rfl, .some found.1, .some (congruent.join place found.2)⟩
  | case2 tokens none_such =>
    rw [afterName.eq_2 _ _ _ _ _ (absent_of_same (by simp) h none_such)]
    exact .done ⟨named.1, rfl, rfl, .none, .some (congruent.join place named.2)⟩
      (related_skipBody 0 h)

theorem related_header {start start' : Span} (place : r start start') (tier : Tier)
    (kind : DeclKind) (h : Same r tokens tokens') :
    (header start tier kind tokens).Related r (DeclarationHeader.Related r)
      (header start' tier kind tokens') :=
  (related_name _ h).bind fun named rest => related_afterName congruent place tier kind named rest

end

/-- Outlines of one stretch that are related, with related tokens after them. -/
abbrev Stepped (r : Span → Span → Prop) (a b : Outline × List Lexeme) : Prop :=
  a.1.Related r b.1 ∧ Same r a.2 b.2

theorem related_ofProblem {problem problem' : SyntaxProblem} (h : problem.Related r problem') :
    (Outline.ofProblem problem).Related r (.ofProblem problem') :=
  ⟨.nil, .nil, .cons h .nil⟩

theorem related_settle {finish finish' item item' : Span} (last : r finish finish')
    (place : r item item') {parse parse' : Parse Outline}
    (h : parse.Related r (Outline.Related r) parse') :
    Stepped r (settle finish item parse) (settle finish' item' parse') := by
  cases h with
  | done outline rest => exact ⟨outline, rest⟩
  | misfit rest =>
    cases rest with
    | nil => exact ⟨related_ofProblem (.finished last (.some place)), .nil⟩
    | @cons found found' _ _ same more =>
      have starts : found.token.startsItem = found'.token.startsItem := by cases same <;> rfl
      refine ⟨related_ofProblem (.unexpected same ?_), related_skipBody 0 (.cons same more)⟩
      rw [starts]
      split
      · exact .none
      · exact .some place

theorem related_declaration (congruent : Congruent r) {finish finish' start start' : Span}
    {item item' : Span} (last : r finish finish') (begin : r start start') (place : r item item')
    (tier : Tier) (kind : DeclKind) (h : Same r tokens tokens') :
    Stepped r (declaration finish start item tier kind tokens)
      (declaration finish' start' item' tier kind tokens') :=
  related_settle last place ((related_header congruent begin tier kind h).map fun header =>
    ⟨.cons header .nil, .nil, .nil⟩)

theorem kind?_related {first first' : Lexeme} (h : first.Related r first') :
    kind? first.token = kind? first'.token := by
  cases h <;> rfl

theorem related_tiered (congruent : Congruent r) {finish finish' start start' : Span}
    (last : r finish finish') (begin : r start start') (tier : Tier)
    (h : Same r tokens tokens') :
    Stepped r (tiered finish start tier tokens) (tiered finish' start' tier tokens') := by
  cases h with
  | nil => exact related_settle last begin (.misfit .nil)
  | @cons first first' _ _ same more =>
    rw [tiered, tiered, kind?_related same]
    split
    · exact related_declaration congruent last begin (by cases same <;> assumption) tier _ more
    · exact related_settle last begin (.misfit (.cons same more))

theorem related_importOutline {statement statement' : ImportStatement}
    (h : statement.Related r statement') :
    (importOutline statement).Related r (importOutline statement') := by
  obtain ⟨path, items, span⟩ := statement
  obtain ⟨path', items', span'⟩ := statement'
  obtain ⟨same, sameItems, place⟩ := h
  dsimp only at same sameItems place
  cases sameItems with
  | nil =>
    have imports : List.Forall₂ (ImportStatement.Related r) [⟨path, [], span⟩]
        [⟨path', [], span'⟩] := .cons ⟨same, .nil, place⟩ .nil
    cases place with
    | some place => exact ⟨.nil, imports, .cons (.nothingImported place) .nil⟩
    | none => exact ⟨.nil, imports, .nil⟩
  | cons item more => exact ⟨.nil, .cons ⟨same, .cons item more, place⟩ .nil, .nil⟩

theorem related_form (congruent : Congruent r) {finish finish' : Span} (last : r finish finish')
    {first first' : Lexeme} (same : first.Related r first') (h : Same r tokens tokens') :
    Stepped r (form finish first tokens) (form finish' first' tokens') := by
  cases same with
  | @same token a b place =>
    rw [form, form]
    dsimp only
    split
    · exact related_settle last place ((related_importStatement congruent place h).map
        related_importOutline)
    · split
      · exact related_declaration congruent last place place _ _ h
      · exact related_tiered congruent last place _ h
      · exact ⟨related_ofProblem (.strayToken (.same place)), related_skipBody 0 h⟩
  | text place => exact ⟨related_ofProblem (.strayToken (.text place)), related_skipBody 0 h⟩

theorem related_append {a a' b b' : Outline} (h : a.Related r a') (h' : b.Related r b') :
    (a ++ b).Related r (a' ++ b') :=
  ⟨List.rel_append h.declarations h'.declarations, List.rel_append h.imports h'.imports,
    List.rel_append h.problems h'.problems⟩

theorem related_forms (congruent : Congruent r) {finish finish' : Span} (last : r finish finish')
    (h : Same r tokens tokens') : (forms finish tokens).Related r (forms finish' tokens') := by
  fun_induction forms finish tokens generalizing tokens' with
  | case1 =>
    cases h
    rw [forms]
    exact ⟨.nil, .nil, .nil⟩
  | case2 =>
    rename_i ih
    rcases h with _ | ⟨same, more⟩
    rw [forms]
    obtain ⟨outline, rest⟩ := related_form congruent last same more
    exact related_append outline (ih rest)

theorem related_finishOf (congruent : Congruent r) (h : Same r tokens tokens') :
    r (finishOf tokens) (finishOf tokens') := by
  refine rel_getD (q := fun m n => r (.point m) (.point n)) (rel_map (rel_getLast? h) ?_)
    congruent.origin
  intro first first' same
  cases same with
  | same place => exact congruent.finish place
  | text place => exact congruent.finish place

end Outline.Reader

/-- Tokens that are read alike make outlines that say the same, and places that are related before
are related after. -/
theorem Outline.related_ofTokens {r : Span → Span → Prop} (congruent : Congruent r)
    {tokens tokens' : List Lexeme} (h : List.Forall₂ (Lexeme.Related r) tokens tokens') :
    (ofTokens tokens).Related r (ofTokens tokens') :=
  Reader.related_forms congruent (Reader.related_finishOf congruent h) h

/-- Tokens with the same shells are read alike, wherever they stand. -/
theorem Lexeme.related_of_shell : ∀ {tokens tokens' : List Lexeme},
    (tokens.map (·.token)).map Token.shell = (tokens'.map (·.token)).map Token.shell →
      List.Forall₂ (Lexeme.Related fun _ _ => True) tokens tokens'
  | [], [], _ => .nil
  | ⟨token, _⟩ :: _, ⟨token', _⟩ :: _, same => by
    obtain ⟨first, more⟩ := List.cons.inj same
    refine .cons ?_ (related_of_shell more)
    cases token <;> cases token' <;> cases first <;>
      first | exact .same trivial | exact .text trivial

namespace Printing

/-- Printed tokens are cut back into themselves, each where it was printed. So neither what stands
between the tokens nor what stands inside string literals changes what an outline says. -/
theorem lex_printed (printing : Printing) :
    lex printing.text = printing.lexemes ∧ printing.lexemes.map (·.token) = printing.tokens ∧
      ∀ other : Printing, other.tokens.map Token.shell = printing.tokens.map Token.shell →
        (Outline.read other.text).Related (fun _ _ => True) (Outline.read printing.text) := by
  refine ⟨printing.lex_text, printing.map_token_lexemes, fun other shells => ?_⟩
  rw [← map_token_lexemes, ← map_token_lexemes] at shells
  rw [Outline.read, Outline.read, lex_text, lex_text]
  exact Outline.related_ofTokens ⟨fun _ _ => trivial, fun _ => trivial, trivial⟩
    (Lexeme.related_of_shell shells)

/-- One declaration, with a blank between any two tokens. -/
def sample : Printing where
  lead := []
  entries := [(.keyword .funWord, [.space]), (.ident "f", [.space]), (.punct .leftBrace, [.space]),
    (.text "x", [.space]), (.punct .rightBrace, [])]
  fits := by
    have free : ∀ word : Keyword, word.spelling ≠ "f" := fun word => by cases word <;> decide
    have inside : IsLiteral ['x'] := .plain (by decide) (by decide) .nil
    simp [Token.Fits, IsWord, free, inside]
  spaced := by simp

/-- The same declaration, with comments that hold keywords and brackets and a bracket in the string
literal. -/
def commentedSample : Printing where
  lead := [.block "type \x7b".toList (by decide +kernel)]
  entries := [(.keyword .funWord, [.line "import".toList (by decide +kernel), .space]),
    (.ident "f", [.block "**".toList (by decide +kernel)]), (.punct .leftBrace, [.space]),
    (.text "\x7d", [.space]), (.punct .rightBrace, [.space])]
  fits := by
    have free : ∀ word : Keyword, word.spelling ≠ "f" := fun word => by cases word <;> decide
    have inside : IsLiteral ['}'] := .plain (by decide) (by decide) .nil
    simp [Token.Fits, IsWord, free, inside]
  spaced := by simp

theorem lex_printed_sample :
    (sample.text = "fun f \x7b \"x\" \x7d" ∧ lex sample.text =
      [⟨.keyword .funWord, ⟨0, 3, by decide⟩⟩, ⟨.ident "f", ⟨4, 5, by decide⟩⟩,
        ⟨.punct .leftBrace, ⟨6, 7, by decide⟩⟩, ⟨.text "x", ⟨8, 11, by decide⟩⟩,
        ⟨.punct .rightBrace, ⟨12, 13, by decide⟩⟩]) ∧
      commentedSample.text = "/*type \x7b*/fun//import\n f/****/\x7b \"\x7d\" \x7d " ∧
      (Outline.read commentedSample.text).Related (fun _ _ => True) (Outline.read sample.text) :=
  ⟨⟨by decide +kernel, sample.lex_printed.1⟩, by decide +kernel,
    sample.lex_printed.2.2 commentedSample rfl⟩

end Printing

end LetModules
