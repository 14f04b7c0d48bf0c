import LetModules.Proofs.Outline.Delimited
import LetModules.Proofs.Token.Words

/-!
The names that an outline records (`named_read`). Whatever the text, all of them are identifiers,
and only the first segment of a path may have dots. Reserved words are not kept out altogether: one
with a stray dot right behind it is taken for an identifier. The dot breaks off whatever goes on
after the name, so this can only be the name of a declaration with a body, or the last segment of a
path; imported names and aliases are never reserved. Where no dot stands so, no name is reserved
(`unreserved_read`).
-/

namespace LetModules

/-- A word that is not reserved. -/
structure Identifier (name : String) : Prop where
  word : IsWord name.toList
  unreserved : ∀ word : Keyword, word.spelling ≠ name

/-- The segments of a path are identifiers, of which the first may be dotted and the last may be a
reserved word in front of a stray dot. -/
structure ModulePath.Named (source : String) (path : ModulePath) : Prop where
  nonempty : path.segments ≠ []
  first : ∀ name ∈ path.segments.head?, IsWord name.toList ∨ IsDotted name.toList
  more : ∀ name ∈ path.segments.tail, IsWord name.toList
  unreserved : ∀ name ∈ path.segments.dropLast, ∀ word : Keyword, word.spelling ≠ name
  last : ∀ word : Keyword, path.segments.getLast? = some word.spelling →
    DotBehind source word.spelling

/-- The name and the alias of an item are identifiers. -/
structure ImportItem.Named (item : ImportItem) : Prop where
  name : Identifier item.name
  bound : ∀ bound, item.boundAs = some bound → Identifier bound

structure ImportStatement.Named (source : String) (statement : ImportStatement) : Prop where
  items : ∀ item ∈ statement.items, item.Named
  path : statement.path.Named source

/-- The name of a declaration is an identifier, or a reserved word in front of a stray dot, which
belongs to the body. -/
structure DeclarationHeader.Named (source : String) (header : DeclarationHeader) : Prop where
  word : IsWord header.name.toList
  reserved : ∀ word : Keyword, header.name = word.spelling →
    header.source = none ∧ DotBehind source header.name
  source : ∀ path, header.source = some path → path.Named source

namespace Lexed

variable {source name : String} {first next : Token} {tokens rest : List Token}

theorem tail (lexed : Lexed source (first :: rest)) : Lexed source rest :=
  lexed.within (List.suffix_cons first rest).isInfix

theorem isWord (lexed : Lexed source tokens) (mem : .ident name ∈ tokens) : IsWord name.toList :=
  lexed.worded _ mem

/-- Where anything but a stray dot comes next, an identifier is not reserved. -/
theorem identifier (lexed : Lexed source (.ident name :: next :: rest))
    (other : next ≠ .unknown ".") : Identifier name where
  word := lexed.isWord List.mem_cons_self
  unreserved := by
    rintro word rfl
    exact other ((List.isChain_cons_cons.mp lexed.leads).1 word rfl)

end Lexed

namespace Outline

/-- The names of an outline are identifiers, but for reserved words in front of stray dots. -/
structure Named (source : String) (outline : Outline) : Prop where
  imports : ∀ statement ∈ outline.imports, statement.Named source
  declarations : ∀ header ∈ outline.declarations, header.Named source

variable {source : String} {next : Token} {rest : List Token}

/-! ### Names in forms -/

/-- An item in front of anything but a stray dot has identifiers. -/
theorem ItemForm.named (form : ItemForm) (lexed : Lexed source (form.tokens ++ next :: rest))
    (other : next ≠ .unknown ".") : form.item.Named ∧ Lexed source (next :: rest) := by
  obtain ⟨name, _ | bound⟩ := form
  · exact ⟨⟨lexed.identifier other, fun _ none => absurd none (by simp [item])⟩, lexed.tail⟩
  · refine ⟨⟨lexed.identifier (by simp), ?_⟩, lexed.tail.tail.tail⟩
    rintro _ ⟨⟩
    exact lexed.tail.tail.identifier other

theorem ItemsForm.named (form : Option ItemsForm)
    (lexed : Lexed source (tokens form ++ .punct .rightBrace :: rest)) :
    ∀ item ∈ items form, item.Named := by
  induction form using ItemsForm.induction with
  | none => exact List.forall_mem_nil _
  | last item =>
    have alone : tokens (some ⟨item, [], false⟩) = item.tokens := by simp [tokens, optional]
    rw [alone] at lexed
    exact List.forall_mem_singleton.mpr (item.named lexed (by simp)).1
  | more item form ih =>
    rw [tokens_cons, List.append_assoc, List.cons_append] at lexed
    obtain ⟨named, lexed⟩ := item.named lexed (by simp)
    rw [items_cons]
    exact List.forall_mem_cons.mpr ⟨named, ih lexed.tail⟩

/-- What has another segment after it is not reserved. -/
theorem unreserved_of_lexed {more : List String} {first : Token}
    (lexed : Lexed source (first :: more.flatMap fun name => [.punct .pathSep, .ident name])) :
    (more ≠ [] → ∀ word : Keyword, first ≠ .ident word.spelling) ∧
      ∀ name ∈ more.dropLast, ∀ word : Keyword, word.spelling ≠ name := by
  induction more generalizing first with
  | nil => exact ⟨fun none => absurd rfl none, List.forall_mem_nil _⟩
  | cons name more ih =>
    obtain ⟨goesOn, later⟩ := ih lexed.tail.tail
    refine ⟨fun _ word same => ?_, ?_⟩
    · exact absurd ((List.isChain_cons_cons.mp lexed.leads).1 word same) (by simp)
    · by_cases last : more = []
      · subst last
        exact List.forall_mem_nil _
      · rw [List.dropLast_cons_of_ne_nil last, List.forall_mem_cons]
        exact ⟨fun word same => goesOn last word (same ▸ rfl), later⟩

/-- A dotted name is not reserved. -/
theorem spelling_ne_of_isDotted {name : String} (dotted : IsDotted name.toList) (word : Keyword) :
    word.spelling ≠ name := by
  rintro rfl
  exact Token.Lexer.dot_not_mem_of_isWord (Token.Lexer.isWord_spelling word)
    (Token.Lexer.dot_mem_of_isDotted dotted)

theorem PathForm.named (form : PathForm) (lexed : Lexed source form.tokens) :
    form.path.Named source := by
  obtain ⟨dotted, first, more⟩ := form
  have later : ∀ name ∈ more, .ident name ∈ PathForm.tokens ⟨dotted, first, more⟩ := by
    intro name mem
    exact List.mem_cons_of_mem _ (List.mem_flatMap.mpr ⟨name, mem, by simp⟩)
  have begins : (dotted = true ∧ IsDotted first.toList) ∨
      (dotted = false ∧ .ident first ∈ PathForm.tokens ⟨dotted, first, more⟩) := by
    cases dotted with
    | true => exact .inl ⟨rfl, lexed.worded (.dotted first) List.mem_cons_self⟩
    | false => exact .inr ⟨rfl, List.mem_cons_self⟩
  obtain ⟨goesOn, unreserved⟩ := unreserved_of_lexed lexed
  constructor
  case nonempty => exact List.cons_ne_nil _ _
  case first =>
    rintro _ ⟨⟩
    exact begins.symm.imp (fun plain => lexed.isWord plain.2) (·.2)
  case more => exact fun name mem => lexed.isWord (later name mem)
  case unreserved =>
    by_cases alone : more = []
    · subst alone
      exact List.forall_mem_nil _
    · have cut : (PathForm.path ⟨dotted, first, more⟩).segments.dropLast = first :: more.dropLast :=
        List.dropLast_cons_of_ne_nil alone
      rw [cut, List.forall_mem_cons]
      refine ⟨fun word same => ?_, unreserved⟩
      rcases begins with ⟨-, dots⟩ | ⟨rfl, -⟩
      · exact spelling_ne_of_isDotted dots word same
      · exact goesOn alone word (same ▸ rfl)
  case last =>
    intro word ends
    refine lexed.dots word ?_
    rcases more.eq_nil_or_concat with rfl | ⟨init, last, rfl⟩
    · obtain rfl : first = word.spelling := Option.some.inj ends
      rcases begins with ⟨-, dots⟩ | ⟨-, mem⟩
      · exact absurd rfl (spelling_ne_of_isDotted dots word)
      · exact mem
    · rw [List.concat_eq_append] at ends later
      have same : last = word.spelling := by
        have ends : (first :: (init ++ [last])).getLast? = some word.spelling := ends
        rw [← List.cons_append, List.getLast?_concat] at ends
        exact Option.some.inj ends
      rw [List.concat_eq_append]
      exact same ▸ later last (by simp)

/-- The records that a form stands for have names of the form. -/
theorem Form.named (form : Form) (lexed : Lexed source form.tokens) :
    (∀ statement, form.statement? = some statement → statement.Named source) ∧
      ∀ header, form.header? = some header → header.Named source := by
  cases form with
  | importing items path semicolon =>
    refine ⟨?_, fun _ none => absurd none (by simp [header?])⟩
    rintro _ ⟨⟩
    refine ⟨ItemsForm.named items lexed.tail.tail, path.named (lexed.within ?_)⟩
    exact (List.prefix_append _ _).isInfix.trans
      (Form.suffix_importing items path semicolon).isInfix
  | republishing tier kind name path semicolon =>
    refine ⟨fun _ none => absurd none (by simp [statement?]), ?_⟩
    rintro _ ⟨⟩
    have sub : [.ident name, .keyword .fromWord] <:+:
        (Form.republishing tier kind name path semicolon).tokens :=
      ⟨TierWord.tokens tier ++ [kind.token], path.tokens ++ optional semicolon .semicolon,
        by simp [Form.tokens]⟩
    have named : Identifier name := (lexed.within sub).identifier (by simp)
    refine ⟨named.word, fun word same => absurd same.symm (named.unreserved word), ?_⟩
    rintro _ ⟨⟩
    refine path.named (lexed.within ?_)
    exact (List.prefix_append _ _).isInfix.trans
      (Form.suffix_republishing tier kind name path semicolon).isInfix
  | declaring tier kind name body =>
    refine ⟨fun _ none => absurd none (by simp [statement?]), ?_⟩
    rintro _ ⟨⟩
    have mem : .ident name ∈ (Form.declaring tier kind name body).tokens := by simp [Form.tokens]
    refine ⟨lexed.isWord mem, fun word same => ⟨rfl, ?_⟩, fun _ none => absurd none (by simp)⟩
    dsimp only at same ⊢
    exact same ▸ lexed.dots word (same ▸ mem)

/-! ### Names in outlines -/

theorem named_of_unplaced_path {path : ModulePath} (named : path.unplaced.Named source) :
    path.Named source :=
  ⟨named.nonempty, named.first, named.more, named.unreserved, named.last⟩

theorem named_of_unplaced_statement {statement : ImportStatement}
    (named : statement.unplaced.Named source) : statement.Named source := by
  refine ⟨fun item mem => ?_, named_of_unplaced_path named.path⟩
  have unplaced := named.items item.unplaced (List.mem_map_of_mem mem)
  exact ⟨unplaced.name, unplaced.bound⟩

theorem named_of_unplaced_header {header : DeclarationHeader}
    (named : header.unplaced.Named source) : header.Named source := by
  refine ⟨named.word, fun word same => ?_, fun path found => ?_⟩
  · exact (named.reserved word same).imp_left Option.map_eq_none_iff.mp
  · refine named_of_unplaced_path (named.source path.unplaced ?_)
    exact Option.map_eq_some_iff.mpr ⟨path, found, rfl⟩

/-- The names of a record are those of the form that it was read off. -/
theorem ReadOff.named {front used back : List Lexeme} {record : Record} {span : Span}
    (read : ReadOff used record span) (cut : lex source = front ++ used ++ back) :
    (∀ statement, record.statement? = some statement → statement.Named source) ∧
      ∀ header, record.header? = some header → header.Named source := by
  obtain ⟨form, -, spelled, sameStatement, sameHeader⟩ := read.spelled
  have lexed : Lexed source form.tokens := by
    refine (lexed_lex source).within ?_
    rw [← spelled, cut, List.map_append, List.map_append]
    exact List.infix_append _ _ _
  obtain ⟨statements, headers⟩ := form.named lexed
  refine ⟨fun statement found => named_of_unplaced_statement (statements _ ?_),
    fun header found => named_of_unplaced_header (headers _ ?_)⟩
  · rw [sameStatement, found, Option.map_some]
  · rw [sameHeader, found, Option.map_some]

open Reader in
/-- Any text is read to an outline whose names are identifiers, but for reserved words in front of
stray dots. -/
theorem named_read (source : String) : (read source).Named source := by
  obtain ⟨rows, trace, imports, declarations⟩ := traces_forms (finishOf (lex source)) (lex source)
  have ofRow : ∀ row ∈ rows,
      (∀ statement, row.1.statement? = some statement → statement.Named source) ∧
        ∀ header, row.1.header? = some header → header.Named source := by
    intro row mem
    obtain ⟨front, used, back, cut, read⟩ := trace.exists_used mem
    exact read.named cut
  constructor
  case imports =>
    intro statement mem
    rw [read, ofTokens, imports] at mem
    obtain ⟨row, hr, found⟩ := List.mem_filterMap.mp mem
    exact (ofRow row hr).1 statement found
  case declarations =>
    intro header mem
    rw [read, ofTokens, declarations] at mem
    obtain ⟨row, hr, found⟩ := List.mem_filterMap.mp mem
    exact (ofRow row hr).2 header found

/-- The name of a declaration with a body, the end of the path of a re-export, and that of an import
may be reserved words. -/
theorem reserved_names_read :
    let outline := read "fun as. type T from a::from. import \x7bx\x7d from public."
    outline.declarations.map (fun header => (header.name, header.source.map (·.segments))) =
        [("as", none), ("T", some ["a", "from"])] ∧
      outline.imports.map (·.path.segments) = [["public"]] := by
  decide +kernel

end Outline

/-- Where no reserved word has a dot right behind it, no segment is reserved. -/
theorem ModulePath.Named.spelling_ne {source : String} {path : ModulePath}
    (named : path.Named source) (undotted : ∀ word : Keyword, ¬ DotBehind source word.spelling) :
    ∀ name ∈ path.segments, ∀ word : Keyword, word.spelling ≠ name := by
  intro name mem word same
  rw [← List.dropLast_append_getLast named.nonempty, List.mem_append, List.mem_singleton] at mem
  rcases mem with before | last
  · exact named.unreserved name before word same
  · refine undotted word (named.last word ?_)
    rw [same, last, List.getLast?_eq_some_getLast named.nonempty]

/-- Where no reserved word has a dot right behind it, no name of an outline is reserved. -/
theorem Outline.unreserved_read {source : String}
    (undotted : ∀ word : Keyword, ¬ DotBehind source word.spelling) :
    (∀ statement ∈ (read source).imports, ∀ name ∈ statement.path.segments,
        ∀ word : Keyword, word.spelling ≠ name) ∧
      ∀ header ∈ (read source).declarations, Identifier header.name ∧
        ∀ path, header.source = some path → ∀ name ∈ path.segments,
          ∀ word : Keyword, word.spelling ≠ name := by
  have named := named_read source
  refine ⟨fun statement mem => (named.imports statement mem).path.spelling_ne undotted, ?_⟩
  intro header mem
  obtain ⟨word, reserved, paths⟩ := named.declarations header mem
  refine ⟨⟨word, fun keyword same => ?_⟩, fun path found => (paths path found).spelling_ne undotted⟩
  exact undotted keyword (same ▸ (reserved keyword same.symm).2)

end LetModules
