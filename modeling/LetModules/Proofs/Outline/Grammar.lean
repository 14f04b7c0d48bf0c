import LetModules.Outline.Reader

/-!
The grammar of outlines. Forms are data whose optional parts may be left out, and a row of forms is
spelled by their tokens, one after the other (`Spells`). A body has no end of its own: it goes on to
the next token outside all brackets that can begin an item (`Runs`).
-/

namespace LetModules

namespace Outline

/-- A keyword that gives a tier. -/
inductive TierWord where
  | privateWord
  | protectedWord
  | internalWord
  | publicWord
  | exportWord

namespace TierWord

def keyword : TierWord → Keyword
  | privateWord => .privateWord
  | protectedWord => .protectedWord
  | internalWord => .internalWord
  | publicWord => .publicWord
  | exportWord => .exportWord

def tier : TierWord → Tier
  | privateWord => .private
  | protectedWord => .protected
  | internalWord => .internal
  | publicWord | exportWord => .public

/-- The tier of a declaration that may have a keyword for it. -/
def tierOf (word : Option TierWord) : Tier := (word.map tier).getD .private

def tokens (word : Option TierWord) : List Token :=
  (word.map fun word => Token.keyword word.keyword).toList

end TierWord

/-- A keyword that says what is declared. -/
inductive KindWord where
  | funWord
  | typeWord

namespace KindWord

def token : KindWord → Token
  | funWord => .keyword .funWord
  | typeWord => .keyword .typeWord

def kind : KindWord → DeclKind
  | funWord => .function
  | typeWord => .type

end KindWord

/-- A mark that may be left out. -/
def optional (present : Bool) (mark : Punct) : List Token := if present then [.punct mark] else []

/-- An identifier, which may be dotted, and more identifiers, each after `::`. -/
structure PathForm where
  dotted : Bool
  first : String
  more : List String

namespace PathForm

def tokens (form : PathForm) : List Token :=
  (if form.dotted then .dotted form.first else .ident form.first) ::
    form.more.flatMap fun name => [.punct .pathSep, .ident name]

def path (form : PathForm) : ModulePath := ⟨form.first :: form.more, none⟩

end PathForm

/-- `name` or `name as bound`. -/
structure ItemForm where
  name : String
  boundAs : Option String

namespace ItemForm

def tokens : ItemForm → List Token
  | ⟨name, none⟩ => [.ident name]
  | ⟨name, some bound⟩ => [.ident name, .keyword .asWord, .ident bound]

def item (form : ItemForm) : ImportItem := ⟨form.name, form.boundAs, none⟩

end ItemForm

/-- Items with commas between them; there may be a comma after the last. -/
structure ItemsForm where
  first : ItemForm
  more : List ItemForm
  comma : Bool

namespace ItemsForm

def tokens : Option ItemsForm → List Token
  | none => []
  | some ⟨first, more, comma⟩ =>
    first.tokens ++ more.flatMap (.punct .comma :: ·.tokens) ++ optional comma .comma

def items : Option ItemsForm → List ImportItem
  | none => []
  | some form => (form.first :: form.more).map (·.item)

/-- An item in front of others. -/
def cons (first : ItemForm) : Option ItemsForm → ItemsForm
  | none => ⟨first, [], true⟩
  | some ⟨second, more, comma⟩ => ⟨first, second :: more, comma⟩

theorem tokens_cons (first : ItemForm) : ∀ form : Option ItemsForm,
    tokens (some (cons first form)) = first.tokens ++ .punct .comma :: tokens form
  | none => by simp [cons, tokens, optional]
  | some ⟨second, more, comma⟩ => by simp [cons, tokens]

theorem items_cons (first : ItemForm) : ∀ form : Option ItemsForm,
    items (some (cons first form)) = first.item :: items form
  | none => rfl
  | some ⟨_, _, _⟩ => rfl

/-- Items are none, a last one without a comma, or one in front of others. -/
theorem induction {motive : Option ItemsForm → Prop} (none : motive none)
    (last : ∀ item, motive (some ⟨item, [], false⟩))
    (more : ∀ item form, motive form → motive (some (cons item form))) : ∀ form, motive form
  | .none => none
  | some ⟨first, rest, comma⟩ => by
    induction rest generalizing first with
    | nil =>
      cases comma with
      | false => exact last first
      | true => exact more first .none none
    | cons second rest ih => exact more first (some ⟨second, rest, comma⟩) (ih second)

end ItemsForm

/-- A top-level form. -/
inductive Form where
  /-- `import { items } from path [;]` -/
  | importing (items : Option ItemsForm) (path : PathForm) (semicolon : Bool)
  /-- `[tier] (fun|type) name from path [;]` -/
  | republishing (tier : Option TierWord) (kind : KindWord) (name : String) (path : PathForm)
      (semicolon : Bool)
  /-- `[tier] (fun|type) name body` -/
  | declaring (tier : Option TierWord) (kind : KindWord) (name : String) (body : List Token)

/-- The bracket depth after a token; what is closed at depth zero leaves it at zero. -/
def turn (depth : Nat) (token : Token) : Nat :=
  if token.opens then depth + 1 else if token.closes then depth - 1 else depth

/-- The tokens `body` run from bracket depth `depth` up to the first token at depth zero that can
begin an item, or up to the end; `after` is what comes after them. -/
structure Runs (depth : Nat) (body after : List Token) : Prop where
  within : ∀ before token later, body = before ++ token :: later → token.startsItem = true →
    before.foldl turn depth ≠ 0
  ends : ∀ token later, after = token :: later →
    token.startsItem = true ∧ body.foldl turn depth = 0

namespace Form

def tokens : Form → List Token
  | importing items path semicolon =>
    .keyword .importWord :: .punct .leftBrace :: (ItemsForm.tokens items ++
      .punct .rightBrace :: .keyword .fromWord :: (path.tokens ++ optional semicolon .semicolon))
  | republishing tier kind name path semicolon =>
    TierWord.tokens tier ++ kind.token :: .ident name :: .keyword .fromWord ::
      (path.tokens ++ optional semicolon .semicolon)
  | declaring tier kind name body =>
    TierWord.tokens tier ++ kind.token :: .ident name :: body

/-- A body does not begin with `from` and runs up to what comes after the form. -/
def Fits (after : List Token) : Form → Prop
  | declaring _ _ _ body => body.head? ≠ some (.keyword .fromWord) ∧ Runs 0 body after
  | _ => True

/-- The import statement that the form is. -/
def statement? : Form → Option ImportStatement
  | importing items path _ => some ⟨path.path, ItemsForm.items items, none⟩
  | _ => none

/-- The header of the declaration that the form is. -/
def header? : Form → Option DeclarationHeader
  | importing .. => none
  | republishing tier _ name path _ =>
    some ⟨name, TierWord.tierOf tier, .reexport, some path.path, none⟩
  | declaring tier kind name _ => some ⟨name, TierWord.tierOf tier, kind.kind, none, none⟩

end Form

/-- The tokens spell the forms, one after the other. -/
inductive Spells : List Form → List Token → Prop
  | nil : Spells [] []
  | cons {form : Form} {forms : List Form} {after : List Token} (fits : form.Fits after)
      (rest : Spells forms after) : Spells (form :: forms) (form.tokens ++ after)

/-- The tokens begin with one that can begin an item, if there are any. -/
def Fresh (tokens : List Token) : Prop :=
  ∀ first, tokens.head? = some first → first.startsItem = true

theorem exists_keyword (tier : Option TierWord) (kind : KindWord) (rest : List Token) :
    ∃ first later, TierWord.tokens tier ++ kind.token :: rest = first :: later ∧
      first.startsItem = true := by
  cases tier with
  | none => exact ⟨_, _, rfl, by cases kind <;> rfl⟩
  | some word => exact ⟨_, _, rfl, by cases word <;> rfl⟩

/-- Every form begins with a token that can begin an item. -/
theorem Form.exists_first : ∀ form : Form,
    ∃ first later, form.tokens = first :: later ∧ first.startsItem = true
  | importing .. => ⟨_, _, rfl, rfl⟩
  | republishing tier kind .. => exists_keyword tier kind _
  | declaring tier kind .. => exists_keyword tier kind _

theorem Spells.fresh {forms : List Form} {tokens : List Token} (h : Spells forms tokens) :
    Fresh tokens := by
  cases h with
  | nil => exact fun first none => absurd none (by simp)
  | @cons form _ after fits rest =>
    obtain ⟨first, later, begins, starts⟩ := form.exists_first
    rw [begins]
    rintro _ ⟨⟩
    exact starts

theorem runs_nil_iff {depth : Nat} {after : List Token} :
    Runs depth [] after ↔ ∀ token later, after = token :: later →
      token.startsItem = true ∧ depth = 0 :=
  ⟨fun h => h.ends, fun h => ⟨fun _ _ _ cut => absurd cut (by simp), h⟩⟩

/-- A body goes on with any token that does not begin an item at depth zero. -/
theorem runs_cons_iff {depth : Nat} {token : Token} {body after : List Token} :
    Runs depth (token :: body) after ↔
      (token.startsItem = true → depth ≠ 0) ∧ Runs (turn depth token) body after := by
  constructor
  · intro h
    refine ⟨h.within [] token body rfl, fun before next later cut => ?_, h.ends⟩
    exact h.within (token :: before) next later (congrArg (token :: ·) cut)
  · rintro ⟨first, h⟩
    refine ⟨fun before next later cut starts => ?_, h.ends⟩
    cases before with
    | nil =>
      obtain ⟨rfl, -⟩ := List.cons.inj cut
      exact first starts
    | cons _ before =>
      obtain ⟨rfl, same⟩ := List.cons.inj cut
      exact h.within before next later same starts

end Outline

end LetModules
