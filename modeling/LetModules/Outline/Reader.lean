import LetModules.Outline
import LetModules.Token.Lexer

/-!
Reading an outline from tokens. The top-level forms are

* `import { name [as bound], … } from path [;]`
* `[tier] (fun|type) name from path [;]`
* `[tier] (fun|type) name body`

where a body is everything up to the next keyword that can begin a form outside all brackets. A
token that does not fit ends its form, and what is left of the form is skipped like a body.
-/

namespace LetModules.Outline.Reader

/-- What reading finds: a value and the tokens after it, or the tokens from the one that does not
fit, with what was expected there. -/
inductive Parse (α : Type) where
  | done (value : α) (rest : List Lexeme)
  | misfit (expected : String) (rest : List Lexeme)

namespace Parse

/-- The tokens at which reading stopped. -/
def rest : Parse α → List Lexeme
  | .done _ rest => rest
  | .misfit _ rest => rest

/-- Changes the value that was read. -/
def map (f : α → β) : Parse α → Parse β
  | .done value rest => .done (f value) rest
  | .misfit expected rest => .misfit expected rest

/-- Goes on with the tokens that are left. -/
def bind (parse : Parse α) (next : α → List Lexeme → Parse β) : Parse β :=
  match parse with
  | .done value rest => next value rest
  | .misfit expected rest => .misfit expected rest

@[simp] theorem rest_done (value : α) (rest : List Lexeme) : (Parse.done value rest).rest = rest :=
  rfl

@[simp] theorem rest_misfit (expected : String) (rest : List Lexeme) :
    (Parse.misfit expected rest : Parse α).rest = rest := rfl

@[simp] theorem rest_map (f : α → β) (parse : Parse α) : (parse.map f).rest = parse.rest := by
  cases parse <;> rfl

theorem length_rest_bind {parse : Parse α} {next : α → List Lexeme → Parse β} {n : Nat}
    (hp : parse.rest.length ≤ n)
    (hn : ∀ value rest, rest.length ≤ n → (next value rest).rest.length ≤ n) :
    (parse.bind next).rest.length ≤ n := by
  cases parse with
  | done value rest => exact hn value rest hp
  | misfit expected rest => exact hp

end Parse

/-- One given token. -/
def expect (token : Token) (expected : String) : List Lexeme → Parse Span
  | [] => .misfit expected []
  | found :: rest =>
    if found.token = token then .done found.span rest else .misfit expected (found :: rest)

/-- An identifier. -/
def name (expected : String) : List Lexeme → Parse (String × Span)
  | ⟨.ident name, span⟩ :: rest => .done (name, span) rest
  | tokens => .misfit expected tokens

/-- A semicolon, if there is one. -/
def semicolon : List Lexeme → Option Span × List Lexeme
  | ⟨.punct .semicolon, span⟩ :: rest => (some span, rest)
  | tokens => (none, tokens)

/-- The segments of a path after the first. -/
def segments : List Lexeme → Parse (List (String × Span))
  | ⟨.punct .pathSep, _⟩ :: ⟨.ident name, span⟩ :: rest =>
    (segments rest).map ((name, span) :: ·)
  | ⟨.punct .pathSep, _⟩ :: rest => .misfit "a path segment after `::`" rest
  | tokens => .done [] tokens

/-- The path of a first segment and the ones after it, with the place of the whole. -/
def pathOf (first : String × Span) (more : List (String × Span)) : ModulePath × Span :=
  let span := first.2.join ((more.getLast?.map (·.2)).getD first.2)
  (⟨first.1 :: more.map (·.1), some span⟩, span)

/-- A path. Only its first segment may be dotted, since only a package name is. -/
def path : List Lexeme → Parse (ModulePath × Span)
  | ⟨.ident name, span⟩ :: rest => (segments rest).map (pathOf (name, span))
  | ⟨.dotted name, span⟩ :: rest => (segments rest).map (pathOf (name, span))
  | tokens => .misfit "a module path" tokens

/-- The items of an import after its opening brace, up to and with the closing one. -/
def items : List Lexeme → Parse (List ImportItem)
  | ⟨.punct .rightBrace, _⟩ :: rest => .done [] rest
  | ⟨.ident name, span⟩ :: ⟨.keyword .asWord, _⟩ :: ⟨.ident bound, boundSpan⟩ :: rest =>
    let item : ImportItem := ⟨name, some bound, some (span.join boundSpan)⟩
    match rest with
    | ⟨.punct .comma, _⟩ :: rest => (items rest).map (item :: ·)
    | ⟨.punct .rightBrace, _⟩ :: rest => .done [item] rest
    | tokens => .misfit "`,` or `\x7d`" tokens
  | ⟨.ident _, _⟩ :: ⟨.keyword .asWord, _⟩ :: rest => .misfit "an alias after `as`" rest
  | ⟨.ident name, span⟩ :: rest =>
    let item : ImportItem := ⟨name, none, some span⟩
    match rest with
    | ⟨.punct .comma, _⟩ :: rest => (items rest).map (item :: ·)
    | ⟨.punct .rightBrace, _⟩ :: rest => .done [item] rest
    | tokens => .misfit "`,` or `\x7d`" tokens
  | tokens => .misfit "an imported name" tokens

/-- An import statement after its keyword, which stands at `start`. -/
def importStatement (start : Span) (tokens : List Lexeme) : Parse ImportStatement :=
  (expect (.punct .leftBrace) "`\x7b`" tokens).bind fun _ rest =>
  (items rest).bind fun items rest =>
  (expect (.keyword .fromWord) "`from`" rest).bind fun _ rest =>
  (path rest).bind fun (path, pathSpan) rest =>
  let (stop, rest) := semicolon rest
  .done ⟨path, items, some (start.join (stop.getD pathSpan))⟩ rest

/-- The tokens from the end of a body on, inside `depth` brackets. -/
def skipBody : Nat → List Lexeme → List Lexeme
  | _, [] => []
  | depth, first :: rest =>
    if depth = 0 && first.token.startsItem then first :: rest
    else if first.token.opens then skipBody (depth + 1) rest
    else if first.token.closes then skipBody (depth - 1) rest
    else skipBody depth rest

/-- The source of a re-export after `from`, with the semicolon if there is one. -/
def source (tokens : List Lexeme) : Parse (ModulePath × Span) :=
  (path tokens).bind fun (path, pathSpan) rest =>
  let (stop, rest) := semicolon rest
  .done (path, stop.getD pathSpan) rest

/-- What follows the name of a declaration: `from` and a path, or a body. The form begins at
`start`. -/
def afterName (start : Span) (tier : Tier) (kind : DeclKind) (declared : String × Span) :
    List Lexeme → Parse DeclarationHeader
  | ⟨.keyword .fromWord, _⟩ :: rest =>
    (source rest).map fun found =>
      ⟨declared.1, tier, .reexport, some found.1, some (start.join found.2)⟩
  | rest => .done ⟨declared.1, tier, kind, none, some (start.join declared.2)⟩ (skipBody 0 rest)

/-- A declaration after its `fun` or `type`. The form begins at `start`. -/
def header (start : Span) (tier : Tier) (kind : DeclKind) (tokens : List Lexeme) :
    Parse DeclarationHeader :=
  (name "a declaration name" tokens).bind (afterName start tier kind)

/-- The outline of a form that was read, or the problem of one that broke off. The form's last
keyword stands at `item`, the file ends at `finish`. -/
def settle (finish item : Span) : Parse Outline → Outline × List Lexeme
  | .done outline rest => (outline, rest)
  | .misfit expected [] => (.ofProblem (.unexpected expected none finish (some item)), [])
  | .misfit expected (found :: rest) =>
    let item := if found.token.startsItem then none else some item
    (.ofProblem (.unexpected expected (some found.token) found.span item),
      skipBody 0 (found :: rest))

/-- The kind that `fun` and `type` give to a declaration. -/
def kind? : Token → Option DeclKind
  | .keyword .funWord => some .function
  | .keyword .typeWord => some .type
  | _ => none

/-- A declaration after its `fun` or `type`, which stands at `item`. The form begins at `start`. -/
def declaration (finish start item : Span) (tier : Tier) (kind : DeclKind)
    (rest : List Lexeme) : Outline × List Lexeme :=
  settle finish item ((header start tier kind rest).map .ofDeclaration)

/-- A declaration after its tier, which stands at `start`. -/
def tiered (finish start : Span) (tier : Tier) : List Lexeme → Outline × List Lexeme
  | [] => settle finish start (.misfit "`fun` or `type`" [])
  | first :: rest =>
    match kind? first.token with
    | some kind => declaration finish start first.span tier kind rest
    | none => settle finish start (.misfit "`fun` or `type`" (first :: rest))

/-- The outline of an import statement. One without items is reported and kept. -/
def importOutline (statement : ImportStatement) : Outline :=
  match statement.items, statement.span with
  | [], some span => ⟨[], [statement], [.nothingImported span]⟩
  | _, _ => .ofImport statement

/-- The form that begins with the token `first`, and the tokens after it. -/
def form (finish : Span) (first : Lexeme) (rest : List Lexeme) : Outline × List Lexeme :=
  if first.token = .keyword .importWord then
    settle finish first.span ((importStatement first.span rest).map importOutline)
  else
    match kind? first.token, first.token.tier? with
    | some kind, _ => declaration finish first.span first.span .private kind rest
    | none, some tier => tiered finish first.span tier rest
    | none, none => (.ofProblem (.strayToken first.token first.span), skipBody 0 rest)

/-! No step gives back more tokens than it got, and a form keeps its first token, so reading
ends. -/

theorem length_semicolon (tokens : List Lexeme) : (semicolon tokens).2.length ≤ tokens.length := by
  unfold semicolon; split <;> simp

theorem length_expect (token : Token) (expected : String) (tokens : List Lexeme) :
    (expect token expected tokens).rest.length ≤ tokens.length := by
  unfold expect
  split
  · simp
  · split <;> simp

theorem length_name (expected : String) (tokens : List Lexeme) :
    (name expected tokens).rest.length ≤ tokens.length := by
  unfold name; split <;> simp

theorem length_segments (tokens : List Lexeme) :
    (segments tokens).rest.length ≤ tokens.length := by
  fun_induction segments tokens with
  | case1 colons name span rest ih =>
    rw [Parse.rest_map, List.length_cons, List.length_cons]
    omega
  | case2 => exact Nat.le_succ _
  | case3 => exact Nat.le_refl _

theorem length_path (tokens : List Lexeme) : (path tokens).rest.length ≤ tokens.length := by
  unfold path
  split
  · simpa using Nat.le_succ_of_le (length_segments _)
  · simpa using Nat.le_succ_of_le (length_segments _)
  · simp

theorem length_items (tokens : List Lexeme) : (items tokens).rest.length ≤ tokens.length := by
  fun_induction items tokens <;> simp <;> omega

theorem length_importStatement (start : Span) (tokens : List Lexeme) :
    (importStatement start tokens).rest.length ≤ tokens.length := by
  refine Parse.length_rest_bind (length_expect _ _ _) fun _ r₁ h₁ => ?_
  refine Parse.length_rest_bind (Nat.le_trans (length_items r₁) h₁) fun _ r₂ h₂ => ?_
  refine Parse.length_rest_bind (Nat.le_trans (length_expect _ _ r₂) h₂) fun _ r₃ h₃ => ?_
  refine Parse.length_rest_bind (Nat.le_trans (length_path r₃) h₃) fun _ r₄ h₄ => ?_
  exact Nat.le_trans (length_semicolon r₄) h₄

theorem length_skipBody (depth : Nat) (tokens : List Lexeme) :
    (skipBody depth tokens).length ≤ tokens.length := by
  fun_induction skipBody depth tokens <;> simp <;> omega

theorem length_source (tokens : List Lexeme) : (source tokens).rest.length ≤ tokens.length :=
  Parse.length_rest_bind (length_path tokens) fun _ r h => Nat.le_trans (length_semicolon r) h

theorem length_afterName (start : Span) (tier : Tier) (kind : DeclKind) (declared : String × Span)
    (tokens : List Lexeme) :
    (afterName start tier kind declared tokens).rest.length ≤ tokens.length := by
  unfold afterName
  split
  · simpa using Nat.le_succ_of_le (length_source _)
  · simpa using length_skipBody 0 _

theorem length_header (start : Span) (tier : Tier) (kind : DeclKind) (tokens : List Lexeme) :
    (header start tier kind tokens).rest.length ≤ tokens.length :=
  Parse.length_rest_bind (length_name _ _) fun _ _ h => Nat.le_trans (length_afterName _ _ _ _ _) h

theorem length_settle (finish item : Span) (parse : Parse Outline) :
    (settle finish item parse).2.length ≤ parse.rest.length := by
  unfold settle
  split
  · simp
  · simp
  · exact length_skipBody _ _

theorem length_declaration (finish start item : Span) (tier : Tier) (kind : DeclKind)
    (rest : List Lexeme) :
    (declaration finish start item tier kind rest).2.length ≤ rest.length := by
  refine Nat.le_trans (length_settle _ _ _) ?_
  simpa using length_header _ _ _ _

theorem length_tiered (finish start : Span) (tier : Tier) (tokens : List Lexeme) :
    (tiered finish start tier tokens).2.length ≤ tokens.length := by
  unfold tiered
  split
  · exact length_settle _ _ _
  · split
    · exact Nat.le_succ_of_le (length_declaration _ _ _ _ _ _)
    · exact length_settle _ _ _

theorem length_form (finish : Span) (first : Lexeme) (rest : List Lexeme) :
    (form finish first rest).2.length ≤ rest.length := by
  unfold form
  split
  · refine Nat.le_trans (length_settle _ _ _) ?_
    simpa using length_importStatement _ _
  · split
    · exact length_declaration _ _ _ _ _ _
    · exact length_tiered _ _ _ _
    · exact length_skipBody _ _

/-- The outline of the tokens from here on. -/
def forms (finish : Span) : List Lexeme → Outline
  | [] => .empty
  | first :: rest =>
    let step := form finish first rest
    step.1 ++ forms finish step.2
termination_by tokens => tokens.length
decreasing_by exact Nat.lt_succ_of_le (length_form finish first rest)

/-- Where the last token ends. -/
def finishOf (tokens : List Lexeme) : Span :=
  .point ((tokens.getLast?.map (·.span.stop)).getD 0)

end LetModules.Outline.Reader

namespace LetModules.Outline

/-- The outline of a list of tokens. -/
def ofTokens (tokens : List Lexeme) : Outline :=
  Reader.forms (Reader.finishOf tokens) tokens

/-- The outline of a source text. -/
def read (source : String) : Outline := ofTokens (lex source)

end LetModules.Outline
