import LetModules.Proofs.Token.Slice
import Mathlib.Data.List.Chain

/-!
The words that a text is cut into (`lexed_lex`). An identifier is a letter or an underscore with
letters, digits and underscores behind it, and a dotted one is several of these with dots between
them. A reserved word is no identifier, unless it stands right in front of a dot that joins nothing
to it; such a dot is the next token, and it is no token of any form.
-/

namespace LetModules

/-- An identifier is one word, a dotted one has several. -/
def Token.Worded : Token → Prop
  | .ident name => IsWord name.toList
  | .dotted name => IsDotted name.toList
  | _ => True

/-- The second token may come after the first: what comes after a reserved word that is taken for an
identifier is a stray dot. -/
def Token.LeadsTo (first second : Token) : Prop :=
  ∀ word : Keyword, first = .ident word.spelling → second = .unknown "."

/-- The name is taken for an identifier where a dot stands right behind it. -/
def DotBehind (source name : String) : Prop :=
  ∃ l ∈ lex source, l.token = .ident name ∧
    Text.slice source l.span.stop (l.span.stop + 1) = "."

/-- The tokens have been cut, one after the other, from the source text. -/
structure Lexed (source : String) (tokens : List Token) : Prop where
  worded : ∀ token ∈ tokens, token.Worded
  leads : tokens.IsChain Token.LeadsTo
  dots : ∀ word : Keyword, .ident word.spelling ∈ tokens → DotBehind source word.spelling

theorem Lexed.within {source : String} {tokens more : List Token} (lexed : Lexed source more)
    (sub : tokens <:+: more) : Lexed source tokens where
  worded := fun token mem => lexed.worded token (sub.subset mem)
  leads := List.IsChain.infix lexed.leads sub
  dots := fun word mem => lexed.dots word (sub.subset mem)

namespace Token.Lexer

variable {c : Char} {cs more rest : List Char} {reserved : Keyword}

/-! ### Words -/

theorem isWord_singleton (starts : startsWord c = true) : IsWord [c] :=
  ⟨by simpa [startsWord] using starts, List.forall_mem_nil _⟩

theorem isWord_concat {word : List Char} (first : IsWord word)
    (continues : continuesWord c = true) : IsWord (word ++ [c]) := by
  cases word with
  | nil => exact first.elim
  | cons d tail =>
    obtain ⟨starts, inside⟩ := first
    refine ⟨starts, List.forall_mem_append.mpr ⟨inside, List.forall_mem_singleton.mpr ?_⟩⟩
    simpa [continuesWord] using continues

/-- A word is cut off with all that belongs to it, and with the words that dots join to it. -/
theorem isWord_or_isDotted {word : List Char} (first : IsWord word) (cs : List Char) :
    IsWord (word ++ wordRest cs) ∨ IsDotted (word ++ wordRest cs) := by
  fun_induction wordRest cs generalizing word with
  | case1 => exact .inl (by rwa [List.append_nil])
  | case2 c cs starts ih =>
    refine .inr ?_
    rcases ih (isWord_singleton starts) with next | next
    · exact .pair first next
    · exact .more first next
  | case3 => exact .inl (by rwa [List.append_nil])
  | case4 c cs _ continues ih =>
    rw [List.append_cons]
    exact ih (isWord_concat first continues)
  | case5 => exact .inl (by rwa [List.append_nil])

theorem worded_wordToken {word : List Char} (h : IsWord word ∨ IsDotted word) (rest : List Char) :
    (wordToken word rest).Worded := by
  rw [wordToken]
  split
  next dot =>
    have dotted := h.resolve_left fun word => dot_not_mem_of_isWord word (by simpa using dot)
    rwa [Token.Worded, String.toList_ofList]
  next noDot =>
    have plain := h.resolve_right fun dotted =>
      noDot (by simpa using dot_mem_of_isDotted dotted)
    split
    · split
      · rwa [Token.Worded, String.toList_ofList]
      · trivial
    · rwa [Token.Worded, String.toList_ofList]

/-- What makes a reserved word an identifier is a dot. -/
theorem head?_of_wordToken {word : List Char}
    (h : wordToken word rest = .ident reserved.spelling) : rest.head? = some '.' := by
  have spelled : reserved.spelling = String.ofList word := by
    rw [← written_wordToken word rest, h, Token.written]
  by_contra noDot
  rw [wordToken, ← spelled, ofSpelling?_spelling] at h
  simp only [if_neg noDot] at h
  split at h <;> cases h

/-! ### Pieces -/

/-- An identifier, dotted or not, is all that belongs to a word. -/
theorem wordToken_of_piece {token : Token} {name : String}
    (cut : piece c cs = (more, some token)) (word : token = .ident name ∨ token = .dotted name) :
    startsWord c = true ∧ more = wordRest cs ∧
      wordToken (c :: more) (cs.drop more.length) = token := by
  revert cut
  fun_cases piece c cs with
  | case2 noSpace starts =>
    intro cut
    obtain ⟨taken, made⟩ := Prod.mk.inj cut
    exact ⟨starts, taken.symm, taken ▸ Option.some.inj made⟩
  | _ =>
    intro cut
    obtain ⟨-, made⟩ := Prod.mk.inj cut
    rcases word with rfl | rfl <;> cases made

theorem worded_piece {token : Token} (cut : piece c cs = (more, some token)) : token.Worded := by
  cases token with
  | ident name =>
    obtain ⟨starts, rfl, same⟩ := wordToken_of_piece cut (.inl rfl)
    rw [← same]
    exact worded_wordToken (isWord_or_isDotted (isWord_singleton starts) cs) _
  | dotted name =>
    obtain ⟨starts, rfl, same⟩ := wordToken_of_piece cut (.inr rfl)
    rw [← same]
    exact worded_wordToken (isWord_or_isDotted (isWord_singleton starts) cs) _
  | _ => trivial

/-- Where a reserved word is cut off as an identifier, the rest begins with a dot. -/
theorem head?_of_piece (cut : piece c (more ++ rest) = (more, some (.ident reserved.spelling))) :
    rest.head? = some '.' := by
  obtain ⟨-, -, same⟩ := wordToken_of_piece cut (.inl rfl)
  rw [List.drop_left] at same
  exact head?_of_wordToken same

theorem piece_dot (cs : List Char) : piece '.' cs = ([], some (.unknown ".")) := by
  simp [piece, isSpace, startsWord, punct?]

/-! ### The scan -/

theorem worded_of_mem_scan {start : Nat} {l : Lexeme} (mem : l ∈ scan cs start) :
    l.token.Worded := by
  induction cs, start using scan_pieces with
  | nil =>
    rw [scan] at mem
    cases mem
  | token c taken rest token start cut ih =>
    rw [scan_of_piece cut] at mem
    rcases List.mem_cons.mp mem with rfl | mem
    · exact worded_piece cut
    · exact ih mem
  | skip c taken rest start cut ih =>
    rw [scan_of_skip cut] at mem
    exact ih mem

/-- Right behind a reserved word that is taken for an identifier comes a dot, as a token of its
own. -/
theorem dot_behind {start : Nat} {front back : List Lexeme} {l : Lexeme}
    (h : scan cs start = front ++ l :: back) (ident : l.token = .ident reserved.spelling) :
    ∃ later, back = ⟨.unknown ".", .ofLength l.span.stop 1⟩ :: later := by
  induction cs, start using scan_pieces generalizing front with
  | nil =>
    rw [scan, eq_comm, List.append_eq_nil_iff] at h
    cases h.2
  | token c taken rest token start cut ih =>
    rw [scan_of_piece cut] at h
    cases front with
    | nil =>
      obtain ⟨rfl, behind⟩ := List.cons.inj h
      obtain rfl : token = .ident reserved.spelling := ident
      obtain ⟨rest, rfl⟩ := List.head?_eq_some_iff.mp (head?_of_piece cut)
      rw [← List.nil_append rest, scan_of_piece (piece_dot _)] at behind
      exact ⟨_, behind.symm⟩
    | cons first front => exact ih (List.cons.inj h).2
  | skip c taken rest start cut ih =>
    rw [scan_of_skip cut] at h
    exact ih h

end Token.Lexer

open Token.Lexer

/-- The tokens of a text have been cut from it. -/
theorem lexed_lex (source : String) : Lexed source ((lex source).map (·.token)) where
  worded := by
    intro token mem
    obtain ⟨l, hl, rfl⟩ := List.mem_map.mp mem
    exact worded_of_mem_scan hl
  leads := by
    rw [List.isChain_map, List.isChain_iff_forall_rel_of_append_cons_cons]
    intro l next front back cut word ident
    obtain ⟨later, behind⟩ := dot_behind cut ident
    obtain ⟨rfl, -⟩ := List.cons.inj behind
    rfl
  dots := by
    intro word mem
    obtain ⟨l, hl, ident⟩ := List.mem_map.mp mem
    obtain ⟨front, back, cut⟩ := List.append_of_mem hl
    obtain ⟨later, rfl⟩ := dot_behind cut ident
    refine ⟨l, hl, ident, ?_⟩
    have tiled : Tiled [] source.toList (lex source) := tiled_scan source.toList []
    have mem : ⟨.unknown ".", .ofLength l.span.stop 1⟩ ∈ lex source := by simp [cut]
    exact (tiled.standsIn rfl mem).text

end LetModules
