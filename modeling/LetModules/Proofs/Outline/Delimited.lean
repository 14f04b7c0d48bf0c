import LetModules.Proofs.Outline.Extent
import LetModules.Proofs.Token.Slice

/-!
The places that an outline records delimit the text that was read. Whatever the text, its records
stand one after the other, with their parts inside them, and the slice under a record, read by
itself, gives that record and no other (`delimited_read`).

A whole text is read as a row of forms, with or without problems. What was read off the tokens is
kept as the rows of a trace (`Rows`): each form adds one record or none, and leaves tokens for the
forms after it. The tokens of a record spell a form of the grammar (`ReadOff`), so they are read as
that form again, once the slice has been cut into the same tokens.
-/

namespace LetModules

namespace Outline

/-- What one form adds to an outline. -/
inductive Record where
  | imported (statement : ImportStatement)
  | declared (header : DeclarationHeader)

namespace Record

/-- The import statement, if it is one. -/
def statement? : Record → Option ImportStatement
  | imported statement => some statement
  | declared _ => none

/-- The header of the declaration, if it is one. -/
def header? : Record → Option DeclarationHeader
  | imported _ => none
  | declared header => some header

/-- Where the record has its place. -/
def span? : Record → Option Span
  | imported statement => statement.span
  | declared header => header.span

/-- Where the path and the items have their places. -/
def parts : Record → List (Option Span)
  | imported statement => statement.path.span :: statement.items.map (·.span)
  | declared header => header.source.toList.map (·.span)

/-- The declared name, the imported names, their aliases and the segments of the path. -/
def names : Record → List String
  | imported statement =>
    statement.items.flatMap (fun item => item.name :: item.boundAs.toList) ++
      statement.path.segments
  | declared header => header.name :: header.source.toList.flatMap (·.segments)

/-- No name of the record is a reserved word. -/
def Unreserved (record : Record) : Prop :=
  ∀ name ∈ record.names, Keyword.ofSpelling? name = none

/-- The outline has no errors and holds the record alone, wherever the two have their places. -/
structure Only (record : Record) (outline : Outline) : Prop where
  fine : outline.hasErrors = false
  imports : outline.imports.map (·.unplaced) = (record.statement?.map (·.unplaced)).toList
  declarations : outline.declarations.map (·.unplaced) = (record.header?.map (·.unplaced)).toList

/-- The stretch of the source text is the one that the record was read from: it holds the parts, and
read by itself it gives the record again, unless some name is a reserved word. -/
structure Delimits (source : String) (record : Record) (span : Span) : Prop where
  recorded : record.span? = some span
  nonempty : span.start < span.stop
  inside : span.stop ≤ source.utf8ByteSize
  parts : ∀ part ∈ record.parts, ∃ inner, part = some inner ∧ inner.Within span
  reread : record.Unreserved → record.Only (read (Text.slice source span.start span.stop))

end Record

/-- The rows are the records of the outline in source order, each with the stretch of the source
text that it was read from. -/
structure Delimited (source : String) (rows : List (Record × Span)) : Prop where
  imports : (read source).imports = rows.filterMap (·.1.statement?)
  declarations : (read source).declarations = rows.filterMap (·.1.header?)
  apart : rows.Pairwise (·.2.stop ≤ ·.2.start)
  delimits : ∀ row ∈ rows, row.1.Delimits source row.2

/-- The record was read off just these tokens, which spell a form and go from the beginning of the
stretch to its end. -/
structure ReadOff (used : List Lexeme) (record : Record) (span : Span) : Prop where
  spelled : ∃ form : Form, form.Fits [] ∧ used.map (·.token) = form.tokens ∧
    form.statement? = record.statement?.map (·.unplaced) ∧
      form.header? = record.header?.map (·.unplaced)
  ends : ∀ last name, used.getLast? = some last → last.token = .ident name → name ∈ record.names
  recorded : record.span? = some span
  frames : Frames used span
  parts : AllHeld used record.parts

/-- The rows were read off the tokens before `rest`, in this order. -/
inductive Rows (rest : List Lexeme) : List Lexeme → List (Record × Span) → Prop where
  | done : Rows rest rest []
  | skip {tokens : List Lexeme} {rows : List (Record × Span)} (first : Lexeme) :
      Rows rest tokens rows → Rows rest (first :: tokens) rows
  | next {used after : List Lexeme} {record : Record} {span : Span} {rows : List (Record × Span)} :
      ReadOff used record span → Rows rest after rows →
        Rows rest (used ++ after) ((record, span) :: rows)

namespace Rows

variable {tokens middle rest : List Lexeme} {rows more : List (Record × Span)}

theorem of_suffix (h : rest <:+ tokens) : Rows rest tokens [] := by
  obtain ⟨front, rfl⟩ := h
  induction front with
  | nil => exact .done
  | cons first front ih => exact .skip first ih

theorem append (h : Rows middle tokens rows) (h' : Rows rest middle more) :
    Rows rest tokens (rows ++ more) := by
  induction h with
  | done => exact h'
  | skip first _ ih => exact .skip first ih
  | next read _ ih => exact .next read ih

/-- Each row was read off a stretch of the tokens. -/
theorem exists_used (h : Rows rest tokens rows) {row : Record × Span} (hr : row ∈ rows) :
    ∃ front used back, tokens = front ++ used ++ back ∧ ReadOff used row.1 row.2 := by
  induction h with
  | done => cases hr
  | skip first _ ih =>
    obtain ⟨front, used, back, rfl, read⟩ := ih hr
    exact ⟨first :: front, used, back, rfl, read⟩
  | @next used after record span rows read _ ih =>
    rcases List.mem_cons.mp hr with rfl | hr
    · exact ⟨[], used, after, rfl, read⟩
    · obtain ⟨front, used', back, rfl, read⟩ := ih hr
      exact ⟨used ++ front, used', back, by simp, read⟩

/-- Rows stand one after the other, as their tokens do. -/
theorem apart (h : Rows rest tokens rows)
    (order : tokens.Pairwise (·.span.stop ≤ ·.span.start)) :
    rows.Pairwise (·.2.stop ≤ ·.2.start) := by
  induction h with
  | done => exact .nil
  | skip first _ ih => exact ih order.of_cons
  | @next used after record span rows read later ih =>
    obtain ⟨inUsed, inAfter, across⟩ := List.pairwise_append.mp order
    refine .cons (fun row hr => ?_) (ih inAfter)
    obtain ⟨front, used', back, rfl, read'⟩ := later.exists_used hr
    have inUsed' := (List.pairwise_append.mp (List.pairwise_append.mp inAfter).1).2.1
    obtain ⟨-, last, -, tail, -, stop, -⟩ := read.frames.bounds inUsed
    obtain ⟨first, -, head, -, start, -, -⟩ := read'.frames.bounds inUsed'
    rw [stop, start]
    refine across last (List.mem_of_getLast? tail) first ?_
    simp [List.mem_of_mem_head? head]

end Rows

/-- The outline holds just what was read off the tokens before the rest. -/
def Traces (tokens : List Lexeme) (read : Outline × List Lexeme) : Prop :=
  ∃ rows, Rows read.2 tokens rows ∧ read.1.imports = rows.filterMap (·.1.statement?) ∧
    read.1.declarations = rows.filterMap (·.1.header?)

/-! ### The name at the end of a record -/

/-- What ends with a path and an identifier ends with a segment of the path. -/
theorem PathForm.mem_of_getLast? {form : PathForm} {present : Bool} {tokens : List Token}
    {name : String} (h : form.tokens ++ optional present .semicolon <:+ tokens)
    (ends : tokens.getLast? = some (.ident name)) : name ∈ form.path.segments := by
  obtain ⟨before, rfl⟩ := h
  obtain ⟨dotted, first, more⟩ := form
  cases present with
  | true => simp [optional] at ends
  | false =>
    rw [optional, if_neg (by decide), List.append_nil] at ends
    rcases more.eq_nil_or_concat with rfl | ⟨init, last, rfl⟩
    · cases dotted <;> simp [PathForm.tokens] at ends
      exact ends ▸ List.mem_cons_self
    · rw [List.concat_eq_append] at ends ⊢
      have concat : before ++ PathForm.tokens ⟨dotted, first, init ++ [last]⟩ =
          before ++ PathForm.tokens ⟨dotted, first, init⟩ ++ [.punct .pathSep] ++
            [.ident last] := by
        simp [PathForm.tokens]
      rw [concat, List.getLast?_concat] at ends
      cases ends
      simp [PathForm.path]

theorem Form.suffix_importing (items : Option ItemsForm) (path : PathForm) (present : Bool) :
    path.tokens ++ optional present .semicolon <:+ (importing items path present).tokens :=
  ⟨.keyword .importWord :: .punct .leftBrace ::
    (ItemsForm.tokens items ++ [.punct .rightBrace, .keyword .fromWord]), by simp [Form.tokens]⟩

theorem Form.suffix_republishing (tier : Option TierWord) (kind : KindWord) (name : String)
    (path : PathForm) (present : Bool) : path.tokens ++ optional present .semicolon <:+
      (republishing tier kind name path present).tokens :=
  ⟨TierWord.tokens tier ++ [kind.token, .ident name, .keyword .fromWord], by simp [Form.tokens]⟩

/-- The tokens of a record end with its last token. -/
theorem getLast?_map_token {used : List Lexeme} {last : Lexeme} {token : Token}
    (ends : used.getLast? = some last) (same : last.token = token) :
    (used.map (·.token)).getLast? = some token := by
  rw [List.getLast?_map, ends, ← same]
  rfl

namespace Reader

variable {lexemes rest : List Lexeme}

theorem readOff_importStatement {start : Lexeme} (word : start.token = .keyword .importWord)
    {statement : ImportStatement} (h : importStatement start.span lexemes = .done statement rest) :
    ∃ used span, lexemes = used ++ rest ∧ ReadOff (start :: used) (.imported statement) span := by
  obtain ⟨used, span, rfl, place, frames, placed⟩ := importStatement_placed h
  obtain ⟨items, path, present, cut, same⟩ := importStatement_sound h
  rw [List.map_append, ← List.cons_append, List.append_cancel_right_eq, ← word] at cut
  have spelled : (start :: used).map (·.token) = _ := cut
  refine ⟨used, span, rfl, ⟨.importing items path present, trivial, spelled, ?_, rfl⟩, ?_, place,
    frames, placed.mono (List.subset_cons_self _ _)⟩
  · exact congrArg some same.symm
  · intro last name ends ident
    have ends := getLast?_map_token ends ident
    rw [spelled] at ends
    have inPath := PathForm.mem_of_getLast? (Form.suffix_importing items path present) ends
    have segments : path.path.segments = statement.path.segments :=
      congrArg (·.path.segments) same.symm
    exact List.mem_append_right _ (segments ▸ inPath)

section

/-! A header is read off the tokens `lead` before it, which are its keywords, and some after
them. -/

variable {lead : List Lexeme} {start : Lexeme} {tier : Option TierWord} {kind : KindWord}
  (begins : lead.head? = some start)
  (words : lead.map (·.token) = TierWord.tokens tier ++ [kind.token])

include begins words

/-- The header of a declaration with a body ends with its name. -/
theorem readOff_named (declared : String) (place : Span) :
    ReadOff (lead ++ [⟨.ident declared, place⟩])
      (.declared ⟨declared, TierWord.tierOf tier, kind.kind, none, some (start.span.join place)⟩)
      (start.span.join place) := by
  have spelled : (lead ++ [Lexeme.mk (.ident declared) place]).map (·.token) =
      (Form.declaring tier kind declared []).tokens := by
    rw [List.map_append, words]
    simp [Form.tokens]
  have fits : (Form.declaring tier kind declared []).Fits [] :=
    ⟨by simp, runs_nil_iff.mpr (by simp)⟩
  refine ⟨⟨_, fits, spelled, rfl, rfl⟩, ?_, rfl, ?_, List.forall_mem_nil _⟩
  · intro last name ends ident
    rw [List.getLast?_concat] at ends
    obtain rfl := Option.some.inj ends
    cases ident
    exact List.mem_cons_self
  · obtain ⟨more, rfl⟩ := List.head?_eq_some_iff.mp begins
    exact (Frames.single start).join (.single ⟨.ident declared, place⟩)

/-- The header of a re-export ends with its source. -/
theorem readOff_reexport (declared : String) (place wordPlace : Span) {led : ModulePath × Span}
    (h : source lexemes = .done led rest) : ∃ used, lexemes = used ++ rest ∧
      ReadOff (lead ++ ⟨.ident declared, place⟩ :: ⟨.keyword .fromWord, wordPlace⟩ :: used)
        (.declared ⟨declared, TierWord.tierOf tier, .reexport, some led.1,
          some (start.span.join led.2)⟩) (start.span.join led.2) := by
  obtain ⟨front, back, rfl, frames, inner, same, held⟩ := source_placed h
  obtain ⟨path, present, cut, samePath⟩ := source_sound h
  rw [List.map_append, List.append_cancel_right_eq] at cut
  have spelled : (lead ++ Lexeme.mk (.ident declared) place :: ⟨.keyword .fromWord, wordPlace⟩ ::
      (front ++ back)).map (·.token) =
        (Form.republishing tier kind declared path present).tokens := by
    rw [List.map_append, words, List.map_cons, List.map_cons, cut]
    simp [Form.tokens]
  refine ⟨front ++ back, rfl, ⟨.republishing tier kind declared path present, trivial, spelled,
    rfl, ?_⟩, ?_, rfl, ?_, ?_⟩
  · rw [Form.header?, ← samePath]
    rfl
  · intro last name ends ident
    have ends := getLast?_map_token ends ident
    rw [spelled] at ends
    have inPath := PathForm.mem_of_getLast?
      (Form.suffix_republishing tier kind declared path present) ends
    rw [← samePath] at inPath
    simpa [Record.names] using .inr inPath
  · obtain ⟨more, rfl⟩ := List.head?_eq_some_iff.mp begins
    have framed : Frames ([start] ++ (more ++ ⟨.ident declared, place⟩ ::
        ⟨.keyword .fromWord, wordPlace⟩ :: front) ++ back) (start.span.join led.2) :=
      (Frames.single start).join frames
    simpa using framed
  · refine List.forall_mem_singleton.mpr ⟨inner, same, held.mono fun l hl => ?_⟩
    exact List.mem_append_right _ (List.mem_cons_of_mem _ (List.mem_cons_of_mem _ hl))

/-- What comes after the tokens of a header is passed over up to the rest. -/
theorem readOff_header {found : DeclarationHeader}
    (h : header start.span (TierWord.tierOf tier) kind.kind lexemes = .done found rest) :
    ∃ used after span, lexemes = used ++ after ∧ rest <:+ after ∧
      ReadOff (lead ++ used) (.declared found) span := by
  obtain ⟨⟨declared, place⟩, later, ident, ended⟩ := Parse.bind_eq_done_iff.mp h
  obtain rfl := name_sound ident
  revert ended
  fun_cases afterName start.span (TierWord.tierOf tier) kind.kind (declared, place) later with
  | case1 wordPlace later =>
    intro ended
    obtain ⟨led, done, rfl⟩ := Parse.map_eq_done_iff.mp ended
    obtain ⟨used, rfl, read⟩ := readOff_reexport begins words declared place wordPlace done
    exact ⟨_ :: _ :: used, rest, _, rfl, List.suffix_refl _, read⟩
  | case2 later =>
    intro ended
    obtain ⟨rfl, left⟩ := Parse.done.inj ended
    obtain rfl : skipBody 0 later = rest := left
    exact ⟨[_], later, _, rfl, skipBody_suffix 0 later, readOff_named begins words declared place⟩

end

/-! ### A row of forms -/

variable {tokens : List Lexeme}

/-- Nothing is recorded, and reading stops at a later place. -/
theorem traces_of_suffix {outline : Outline} (imports : outline.imports = [])
    (declarations : outline.declarations = []) (h : rest <:+ tokens) :
    Traces tokens (outline, rest) :=
  ⟨[], .of_suffix h, imports, declarations⟩

/-- One record is read off the first tokens, and reading stops at a later place. -/
theorem traces_of_readOff {outline : Outline} {used after : List Lexeme} {record : Record}
    {span : Span} (read : ReadOff used record span) (h : rest <:+ after)
    (imports : outline.imports = record.statement?.toList)
    (declarations : outline.declarations = record.header?.toList) :
    Traces (used ++ after) (outline, rest) := by
  refine ⟨[(record, span)], .next read (.of_suffix h), ?_, ?_⟩
  · rw [imports, filterMap_cons_eq, List.filterMap_nil, List.append_nil]
  · rw [declarations, filterMap_cons_eq, List.filterMap_nil, List.append_nil]

/-- A form that breaks off is not recorded. -/
theorem traces_settle {finish item : Span} {parse : Parse Outline} (h : parse.rest <:+ tokens)
    (found : ∀ outline rest, parse = .done outline rest → Traces tokens (outline, rest)) :
    Traces tokens (settle finish item parse) := by
  have stop := (settle_suffix finish item parse).trans h
  revert stop
  fun_cases settle finish item parse with
  | case1 outline rest => exact fun _ => found outline rest rfl
  | case2 => exact traces_of_suffix rfl rfl
  | case3 => exact traces_of_suffix rfl rfl

theorem traces_declaration (finish item : Span) {start : Lexeme} {lead : List Lexeme}
    (tier : Option TierWord) (kind : KindWord) (begins : lead.head? = some start)
    (words : lead.map (·.token) = TierWord.tokens tier ++ [kind.token]) :
    Traces (lead ++ rest)
      (declaration finish start.span item (TierWord.tierOf tier) kind.kind rest) := by
  refine traces_settle ?_ fun outline left parsed => ?_
  · exact (Parse.suffix_map (header_suffix _ _ _ _)).trans (List.suffix_append _ _)
  · obtain ⟨found, header, rfl⟩ := Parse.map_eq_done_iff.mp parsed
    obtain ⟨used, after, span, rfl, stop, read⟩ := readOff_header begins words header
    rw [← List.append_assoc]
    exact traces_of_readOff read stop rfl rfl

/-- A form adds one record or none. -/
theorem traces_form (finish : Span) (first : Lexeme) (rest : List Lexeme) :
    Traces (first :: rest) (form finish first rest) := by
  fun_cases form finish first rest with
  | case1 word =>
    refine traces_settle ?_ fun outline left parsed => ?_
    · exact (Parse.suffix_map (importStatement_suffix _ _)).trans (List.suffix_cons _ _)
    · obtain ⟨statement, done, rfl⟩ := Parse.map_eq_done_iff.mp parsed
      obtain ⟨used, span, rfl, read⟩ := readOff_importStatement word done
      have kept : (importOutline statement).imports = [statement] ∧
          (importOutline statement).declarations = [] := by
        fun_cases importOutline statement <;> exact ⟨rfl, rfl⟩
      exact traces_of_readOff read (List.suffix_refl _) kept.1 kept.2
  | case2 _ kind given =>
    obtain ⟨word, same, rfl⟩ := exists_kindWord given
    have words : [first].map (·.token) = TierWord.tokens none ++ [word.token] := by
      simp [TierWord.tokens, same]
    exact traces_declaration finish first.span none word rfl words
  | case3 _ tier given _ =>
    obtain ⟨tierWord, same, rfl⟩ := exists_tierWord given
    fun_cases tiered finish first.span tierWord.tier rest with
    | case1 => exact traces_settle (List.suffix_cons _ _) fun _ _ broken => absurd broken (by simp)
    | case2 second rest kind given =>
      obtain ⟨word, same', rfl⟩ := exists_kindWord given
      have words : [first, second].map (·.token) =
          TierWord.tokens (some tierWord) ++ [word.token] := by
        simp [TierWord.tokens, same, same']
      exact traces_declaration finish second.span (some tierWord) word rfl words
    | case3 => exact traces_settle (List.suffix_cons _ _) fun _ _ broken => absurd broken (by simp)
  | case4 => exact traces_of_suffix rfl rfl ((skipBody_suffix _ _).trans (List.suffix_cons _ _))

/-- The records of a whole text are those of its forms, one after the other. -/
theorem traces_forms (finish : Span) (tokens : List Lexeme) :
    Traces tokens (forms finish tokens, []) := by
  fun_induction forms finish tokens with
  | case1 => exact ⟨[], .done, rfl, rfl⟩
  | case2 first rest step ih =>
    obtain ⟨rows, trace, imports, declarations⟩ := traces_form finish first rest
    obtain ⟨more, trace', imports', declarations'⟩ := ih
    refine ⟨rows ++ more, trace.append trace', ?_, ?_⟩
    · rw [List.filterMap_append, ← imports, ← imports']
      rfl
    · rw [List.filterMap_append, ← declarations, ← declarations']
      rfl

end Reader

open Reader

/-- Tokens that a record was read off make an outline of the record alone. -/
theorem ReadOff.only {used lexemes : List Lexeme} {record : Record} {span : Span}
    (read : ReadOff used record span) (same : lexemes.map (·.token) = used.map (·.token)) :
    record.Only (ofTokens lexemes) := by
  obtain ⟨form, fits, spelled, statement, header⟩ := read.spelled
  have spells : Spells [form] (form.tokens ++ []) := .cons fits .nil
  rw [List.append_nil] at spells
  obtain ⟨fine, imports, declarations⟩ :=
    forms_complete (finishOf lexemes) spells (same.trans spelled)
  refine ⟨fine, imports.trans ?_, declarations.trans ?_⟩
  · rw [filterMap_cons_eq, statement, List.filterMap_nil, List.append_nil]
  · rw [filterMap_cons_eq, header, List.filterMap_nil, List.append_nil]

/-- A record delimits the text that it was read from. -/
theorem ReadOff.delimits {source : String} {front used back : List Lexeme} {record : Record}
    {span : Span} (read : ReadOff used record span) (cut : lex source = front ++ used ++ back) :
    record.Delimits source span := by
  have tiled : Tiled [] source.toList (lex source) := Token.Lexer.tiled_scan source.toList []
  have order := tiled.pairwise_stop_le_start
  rw [cut] at order
  have inUsed := (List.pairwise_append.mp (List.pairwise_append.mp order).1).2.1
  obtain ⟨first, last, head, tail, start, stop, inside⟩ := read.frames.bounds inUsed
  have stands : ∀ l ∈ used, l.StandsIn source := fun l hl =>
    tiled.standsIn rfl (by simp [cut, hl])
  have firstUsed := List.mem_of_mem_head? head
  constructor
  case recorded => exact read.recorded
  case nonempty =>
    rw [start]
    exact Nat.lt_of_lt_of_le (stands first firstUsed).nonempty
      (inside first.span (held_of_mem firstUsed)).2
  case inside =>
    rw [stop]
    exact (stands last (List.mem_of_getLast? tail)).inside
  case parts =>
    intro part hp
    obtain ⟨inner, same, held⟩ := read.parts part hp
    exact ⟨inner, same, inside inner held⟩
  case reread =>
    intro unreserved
    rw [start, stop]
    exact read.only (map_token_lex_slice cut head tail fun name ident =>
      unreserved name (read.ends last name tail ident))

/-- Any text is delimited by the places that its outline records. -/
theorem delimited_read (source : String) : ∃ rows, Delimited source rows := by
  obtain ⟨rows, trace, imports, declarations⟩ := traces_forms (finishOf (lex source)) (lex source)
  have tiled : Tiled [] source.toList (lex source) := Token.Lexer.tiled_scan source.toList []
  refine ⟨rows, imports, declarations, trace.apart tiled.pairwise_stop_le_start, fun row hr => ?_⟩
  obtain ⟨front, used, back, cut, read⟩ := trace.exists_used hr
  exact read.delimits cut

/-- A reserved word is a name only because of the dot after it, which is no part of the record. -/
example : (read "fun as.").declarations =
      [⟨"as", .private, .function, none, some (.ofLength 0 6)⟩] ∧
    (read (Text.slice "fun as." 0 6)).hasErrors = true := by
  decide +kernel

end Outline

end LetModules
