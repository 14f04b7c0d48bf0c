import LetModules.Token.Lexer
import Mathlib.Data.List.TakeWhile

/-!
What one piece of a source text is (`cuts_piece`). It is a beginning of the text; as a token it is
written with just its own characters, and as none it is blank space or a complete comment, with
which the gap before the next token begins.
-/

namespace LetModules

/-- The token as it is written in a source text. -/
def Token.written : Token → String
  | .keyword word => word.spelling
  | .punct mark => mark.spelling
  | .text body => "\"" ++ body ++ "\""
  | .number input | .dotted input | .ident input | .unknown input => input

/-- What may stand around tokens where `rest` follows: blank characters and complete comments, one
after another. A line comment goes on to the end of its line, a block comment to the first mark that
can end it. -/
inductive Gap (rest : List Char) : List Char → Prop where
  | nil : Gap rest []
  | blank {c : Char} {gap : List Char} : c ∈ [' ', '\t', '\n', '\r', '\x0c'] → Gap rest gap →
      Gap rest (c :: gap)
  | line {body gap : List Char} : '\n' ∉ body → (∀ c ∈ (gap ++ rest).head?, c = '\n') →
      Gap rest gap → Gap rest ('/' :: '/' :: body ++ gap)
  | block {body gap : List Char} : ¬ ['*', '/'] <:+: body ++ ['*'] → Gap rest gap →
      Gap rest ('/' :: '*' :: body ++ '*' :: '/' :: gap)

theorem Gap.blanks {rest gap blanks : List Char}
    (blank : ∀ c ∈ blanks, c ∈ [' ', '\t', '\n', '\r', '\x0c']) (h : Gap rest gap) :
    Gap rest (blanks ++ gap) := by
  induction blanks with
  | nil => exact h
  | cons c cs ih =>
    rw [List.forall_mem_cons] at blank
    exact .blank blank.1 (ih blank.2)

namespace Token.Lexer

theorem isSpace_iff (c : Char) : isSpace c = true ↔ c ∈ [' ', '\t', '\n', '\r', '\x0c'] := by
  simp [isSpace, or_assoc]

/-! ### Words, numbers and punctuation -/

theorem wordRest_prefix (cs : List Char) : wordRest cs <+: cs := by
  fun_induction wordRest cs with
  | case1 => exact List.prefix_rfl
  | case2 c cs starts ih => exact (List.prefix_cons_inj '.').mpr ((List.prefix_cons_inj c).mpr ih)
  | case3 => exact List.nil_prefix
  | case4 c cs _ continues ih => exact (List.prefix_cons_inj c).mpr ih
  | case5 => exact List.nil_prefix

theorem numberRest_prefix (cs : List Char) : numberRest cs <+: cs := by
  have whole : cs.takeWhile Char.isDigit <+: cs := List.takeWhile_prefix _
  simp only [numberRest]
  split
  next d ds point =>
    split
    · obtain ⟨rest, fraction⟩ : ds.takeWhile Char.isDigit <+: ds := List.takeWhile_prefix _
      refine ⟨rest, ?_⟩
      rw [List.append_assoc, List.cons_append, List.cons_append, fraction, ← point,
        List.takeWhile_append_dropWhile]
    · exact whole
  next => exact whole

theorem spelling_of_ofSpelling? {word : String} {reserved : Keyword}
    (h : Keyword.ofSpelling? word = some reserved) : reserved.spelling = word := by
  simpa using List.find?_some h

theorem written_wordToken (word rest : List Char) :
    (wordToken word rest).written = String.ofList word := by
  rw [wordToken]
  split
  · rfl
  split
  next reserved found =>
    split
    · rfl
    · exact spelling_of_ofSpelling? found
  next => rfl

theorem spelling_of_punct? {c : Char} {mark : Punct} (h : punct? c = some mark) :
    mark.spelling = String.ofList [c] := by
  revert h
  fun_cases punct? c <;> rintro ⟨⟩ <;> rfl

/-! ### Literals and comments -/

/-- The inside of a literal is a beginning of the text, and where it is closed a quote follows. -/
theorem stringBody_prefix (cs : List Char) :
    (stringBody cs).1 ++ (if (stringBody cs).2 then ['"'] else []) <+: cs := by
  fun_induction stringBody cs with
  | case1 => exact List.prefix_rfl
  | case2 => simp
  | case3 => exact List.nil_prefix
  | case4 => exact List.nil_prefix
  | case5 c rest _ body closed eq ih =>
    rw [eq] at ih
    simpa using ih
  | case6 c cs _ _ body closed eq ih =>
    rw [eq] at ih
    simpa using ih

/-- A comment that goes on to the end of its line leads one gap on to another. -/
theorem gap_line {cs gap after : List Char} (rest : cs.dropWhile (· ≠ '\n') = gap ++ after)
    (h : Gap after gap) : Gap after ('/' :: '/' :: cs.takeWhile (· ≠ '\n') ++ gap) := by
  have inLine : '\n' ∉ cs.takeWhile (· ≠ '\n') := fun mem => by
    simpa using List.mem_takeWhile_imp mem
  have stop := List.head?_dropWhile_not (· ≠ '\n') cs
  rw [rest] at stop
  have lineEnds : ∀ d ∈ (gap ++ after).head?, d = '\n' := fun d hd => by
    rw [Option.mem_def.mp hd] at stop
    simpa using stop
  exact .line inLine lineEnds h

/-- The inside of a block comment is a beginning of the text. -/
theorem commentBody_prefix (cs : List Char) : (commentBody cs).1 <+: cs := by
  fun_induction commentBody cs with
  | case1 => exact List.prefix_rfl
  | case2 => simp
  | case3 c cs _ body closed eq ih =>
    rw [eq] at ih
    simpa using ih

/-- A block comment that ends does so at the first mark that can end it. -/
theorem commentBody_closed {cs : List Char} (closed : (commentBody cs).2 = true) :
    ∃ body, (commentBody cs).1 = body ++ ['*', '/'] ∧ ¬ ['*', '/'] <:+: body ++ ['*'] := by
  fun_induction commentBody cs with
  | case1 => cases closed
  | case2 => exact ⟨[], rfl, by decide⟩
  | case3 c cs notEnd body isClosed eq ih =>
    have inside : (commentBody cs).1 <+: cs := commentBody_prefix cs
    rw [eq] at ih inside
    obtain ⟨inner, rfl, none⟩ := ih closed
    refine ⟨c :: inner, rfl, ?_⟩
    rw [List.cons_append, List.infix_cons_iff, not_or]
    refine ⟨fun starts => ?_, none⟩
    -- a mark across the first character would be one that the search stops at
    obtain ⟨rfl, next⟩ := List.cons_prefix_cons.mp starts
    obtain ⟨tail, rfl⟩ := inside
    cases inner with
    | nil => simp at next
    | cons d inner =>
      obtain ⟨rfl, -⟩ := List.cons_prefix_cons.mp next
      exact notEnd _ rfl rfl

/-! ### Pieces -/

/-- What the text `c :: cs` may be cut into: a token that is written so or something that a gap may
begin with, and the rest. -/
inductive Cuts (c : Char) (cs : List Char) : List Char × Option Token → Prop where
  | token {more rest : List Char} {token : Token} (text : cs = more ++ rest)
      (written : token.written = String.ofList (c :: more)) : Cuts c cs (more, some token)
  | skip {more rest : List Char} (text : cs = more ++ rest)
      (extends_gap : ∀ gap after, rest = gap ++ after → Gap after gap →
        Gap after (c :: more ++ gap)) : Cuts c cs (more, none)

theorem cuts_piece (c : Char) (cs : List Char) : Cuts c cs (piece c cs) := by
  fun_cases piece c cs with
  | case1 space =>
    refine .skip List.takeWhile_append_dropWhile.symm fun gap after _ h => ?_
    have blanks : ∀ d ∈ c :: cs.takeWhile isSpace, isSpace d = true :=
      List.forall_mem_cons.mpr ⟨space, fun d hd => List.mem_takeWhile_imp hd⟩
    simp only [isSpace_iff] at blanks
    exact Gap.blanks blanks h
  | case2 =>
    obtain ⟨rest, text⟩ := wordRest_prefix cs
    exact .token text.symm (written_wordToken _ _)
  | case3 =>
    obtain ⟨rest, text⟩ := numberRest_prefix cs
    exact .token text.symm rfl
  | case4 _ _ _ quote body eq =>
    obtain ⟨rest, text⟩ := stringBody_prefix cs
    rw [eq] at text
    refine .token text.symm ?_
    subst quote
    simp [Token.written, ← String.toList_inj]
  | case5 _ _ _ quote body eq =>
    obtain ⟨rest, text⟩ := stringBody_prefix cs
    rw [eq] at text
    exact .token (by simpa using text.symm) rfl
  | case6 _ _ _ _ slashes =>
    obtain ⟨rfl, next⟩ : c = '/' ∧ cs.head? = some '/' := by simpa using slashes
    obtain ⟨cs, rfl⟩ := List.head?_eq_some_iff.mp next
    exact .skip List.takeWhile_append_dropWhile.symm fun gap after rest h => gap_line rest h
  | case7 _ _ _ _ _ opens body eq =>
    obtain ⟨rfl, next⟩ : c = '/' ∧ cs.head? = some '*' := by simpa using opens
    obtain ⟨cs, rfl⟩ := List.head?_eq_some_iff.mp next
    rw [List.tail_cons] at eq
    obtain ⟨inner, whole, first⟩ := commentBody_closed (congrArg Prod.snd eq)
    obtain ⟨rest, text⟩ := commentBody_prefix cs
    rw [eq] at whole text
    obtain rfl : body = inner ++ ['*', '/'] := whole
    refine .skip (congrArg ('*' :: ·) text.symm) fun gap after _ h => ?_
    simpa using Gap.block first h
  | case8 _ _ _ _ _ opens body eq =>
    obtain ⟨rfl, next⟩ : c = '/' ∧ cs.head? = some '*' := by simpa using opens
    obtain ⟨cs, rfl⟩ := List.head?_eq_some_iff.mp next
    obtain ⟨rest, text⟩ := commentBody_prefix cs
    rw [List.tail_cons] at eq
    rw [eq] at text
    exact .token (congrArg ('*' :: ·) text.symm) rfl
  | case9 _ _ _ _ _ _ colons =>
    obtain ⟨rfl, next⟩ : c = ':' ∧ cs.head? = some ':' := by simpa using colons
    obtain ⟨cs, rfl⟩ := List.head?_eq_some_iff.mp next
    exact .token rfl rfl
  | case10 _ _ _ _ _ _ _ mark eq => exact .token rfl (spelling_of_punct? eq)
  | case11 => exact .token rfl rfl

end Token.Lexer

end LetModules
