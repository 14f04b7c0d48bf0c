import LetModules.Proofs.Token.Printing
import Mathlib.Data.List.Infix

/-!
Cutting a slice of a text into tokens. A slice from the beginning of one token to the end of another
is cut into the very tokens between the two (`map_token_lex_slice`), although the text around it is
gone: a piece is settled by its own characters, whatever comes after them. There is one exception: a
reserved word with a dot after it is an ordinary identifier, so such a word may not stand last.

Each function of the cutting is taken by itself. Let `cs'` be a beginning of `cs` that holds what
the function takes of `cs`; then it takes the same of `cs'`.
-/

namespace LetModules

namespace Token.Lexer

variable {c : Char} {cs cs' : List Char}

/-! ### What is taken of a beginning -/

/-- A beginning that holds the first character goes on with a beginning of the rest. -/
theorem exists_tail {taken : List Char} (pre : cs' <+: c :: cs)
    (within : c :: taken <+: cs') : ∃ ds, cs' = c :: ds ∧ ds <+: cs ∧ taken <+: ds := by
  obtain ⟨rest, rfl⟩ := within
  exact ⟨taken ++ rest, rfl, (List.cons_prefix_cons.mp pre).2, List.prefix_append _ _⟩

theorem takeWhile_stable {p : Char → Bool} (pre : cs' <+: cs)
    (within : cs.takeWhile p <+: cs') : cs'.takeWhile p = cs.takeWhile p := by
  induction cs generalizing cs' with
  | nil => rw [List.prefix_nil.mp pre]
  | cons c cs ih =>
    by_cases holds : p c = true
    · rw [List.takeWhile_cons_of_pos holds] at within ⊢
      obtain ⟨ds, rfl, pre, within⟩ := exists_tail pre within
      rw [List.takeWhile_cons_of_pos holds, ih pre within]
    · rw [List.takeWhile_cons_of_neg holds]
      obtain rfl | ⟨ds, rfl, -⟩ := List.prefix_cons_iff.mp pre
      · rfl
      · exact List.takeWhile_cons_of_neg holds

theorem wordRest_stable (pre : cs' <+: cs) (within : wordRest cs <+: cs') :
    wordRest cs' = wordRest cs := by
  fun_induction wordRest cs generalizing cs' with
  | case1 => rw [List.prefix_nil.mp pre, wordRest]
  | case2 c cs starts ih =>
    obtain ⟨_, rfl, pre, within⟩ := exists_tail pre within
    obtain ⟨ds, rfl, pre, within⟩ := exists_tail pre within
    rw [wordRest, if_pos starts, ih pre within]
  | case3 c cs plain =>
    obtain rfl | ⟨_, rfl, behind⟩ := List.prefix_cons_iff.mp pre
    · rw [wordRest]
    obtain rfl | ⟨ds, rfl, -⟩ := List.prefix_cons_iff.mp behind
    · rfl
    · rw [wordRest, if_neg plain]
  | case4 c cs noDot continues ih =>
    obtain ⟨ds, rfl, pre, within⟩ := exists_tail pre within
    have plain : c ≠ '.' := by
      rintro rfl
      exact absurd continues (by decide)
    rw [wordRest.eq_3 _ _ fun _ _ dot => absurd dot plain, if_pos continues, ih pre within]
  | case5 c cs noDot plain =>
    obtain rfl | ⟨ds, rfl, behind⟩ := List.prefix_cons_iff.mp pre
    · rw [wordRest]
    · rw [wordRest.eq_3 _ _ _, if_neg plain]
      rintro e es dot rfl
      obtain ⟨rest, rfl⟩ := behind
      exact noDot e _ dot rfl

theorem numberRest_stable (pre : cs' <+: cs) (within : numberRest cs <+: cs') :
    numberRest cs' = numberRest cs := by
  have whole : cs.takeWhile Char.isDigit <+: numberRest cs := by
    rw [numberRest]
    split
    · split
      · exact List.prefix_append _ _
      · exact List.prefix_rfl
    · exact List.prefix_rfl
  have same := takeWhile_stable pre (whole.trans within)
  -- what stands behind the digits is again a beginning that holds what is taken
  rw [← List.takeWhile_append_dropWhile (p := Char.isDigit) (l := cs),
    ← List.takeWhile_append_dropWhile (p := Char.isDigit) (l := cs'), same,
    List.prefix_append_right_inj] at pre
  revert within
  fun_cases numberRest cs with
  | case1 digits d ds point digit =>
    intro within
    rw [point] at pre
    rw [← List.takeWhile_append_dropWhile (p := Char.isDigit) (l := cs'), same,
      List.prefix_append_right_inj] at within
    obtain ⟨_, there, pre, within⟩ := exists_tail pre within
    obtain ⟨es, rfl, pre, within⟩ := exists_tail pre within
    simp only [numberRest, there, digit, if_true, same, takeWhile_stable pre within]
    rfl
  | case2 digits d ds point plain =>
    intro _
    simp only [numberRest, same]
    split
    · rename_i e es there
      rw [point, there] at pre
      obtain ⟨rfl, -⟩ := List.cons_prefix_cons.mp (List.cons_prefix_cons.mp pre).2
      rw [if_neg plain]
    · rfl
  | case3 digits noPoint =>
    intro _
    simp only [numberRest, same]
    split
    · rename_i e es there
      obtain ⟨rest, cut⟩ := pre
      rw [there] at cut
      exact absurd cut.symm (noPoint _ _)
    · rfl

theorem stringBody_stable (pre : cs' <+: cs)
    (within : (stringBody cs).1 ++ (if (stringBody cs).2 then ['"'] else []) <+: cs') :
    stringBody cs' = stringBody cs := by
  fun_induction stringBody cs generalizing cs' with
  | case1 => rw [List.prefix_nil.mp pre, stringBody]
  | case2 =>
    obtain ⟨ds, rfl, -, -⟩ := exists_tail pre within
    rw [stringBody]
  | case3 =>
    obtain rfl | ⟨_, rfl, behind⟩ := List.prefix_cons_iff.mp pre
    · rfl
    · rw [List.prefix_nil.mp behind]
      rfl
  | case4 =>
    obtain rfl | ⟨_, rfl, behind⟩ := List.prefix_cons_iff.mp pre
    · rfl
    obtain rfl | ⟨ds, rfl, -⟩ := List.prefix_cons_iff.mp behind
    · rfl
    · rfl
  | case5 c rest noBreak body closed eq ih =>
    rw [eq] at ih
    obtain ⟨_, rfl, pre, within⟩ := exists_tail pre within
    obtain ⟨ds, rfl, pre, within⟩ := exists_tail pre within
    rw [stringBody, if_neg noBreak, ih pre within]
  | case6 c cs noQuote noBackslash body closed eq ih =>
    rw [eq] at ih
    obtain ⟨ds, rfl, pre, within⟩ := exists_tail pre within
    rw [stringBody.eq_5 _ _ noQuote noBackslash, ih pre within]

theorem commentBody_stable (pre : cs' <+: cs) (within : (commentBody cs).1 <+: cs') :
    commentBody cs' = commentBody cs := by
  fun_induction commentBody cs generalizing cs' with
  | case1 => rw [List.prefix_nil.mp pre, commentBody]
  | case2 =>
    obtain ⟨_, rfl, pre, within⟩ := exists_tail pre within
    obtain ⟨ds, rfl, -, -⟩ := exists_tail pre within
    rw [commentBody]
  | case3 c cs notEnd body closed eq ih =>
    rw [eq] at ih
    obtain ⟨ds, rfl, pre, within⟩ := exists_tail pre within
    rw [commentBody.eq_3 _ _ _, ih pre within]
    rintro tail star rfl
    obtain ⟨rest, rfl⟩ := pre
    exact notEnd _ star rfl

/-- The first character of a beginning, if it has one, is that of the whole. -/
theorem head?_stable (pre : cs' <+: cs) (more : cs' ≠ []) : cs'.head? = cs.head? := by
  obtain ⟨c, ds, rfl⟩ := List.exists_cons_of_ne_nil more
  obtain ⟨rest, rfl⟩ := pre
  rfl

theorem head?_ne_stable (pre : cs' <+: cs) (other : cs.head? ≠ some c) :
    cs'.head? ≠ some c := by
  obtain ⟨rest, rfl⟩ := pre
  exact fun first => other (by rw [List.head?_append, first, Option.some_or])

/-- A word is the same token whatever follows, unless it is a reserved word that a dot makes an
identifier. -/
theorem wordToken_stable {word rest rest' : List Char} (pre : rest' <+: rest)
    (kept : rest' = [] → ∀ name, wordToken word rest = .ident name →
      Keyword.ofSpelling? name = none) : wordToken word rest' = wordToken word rest := by
  by_cases more : rest' = []
  · subst more
    by_cases dotted : word.contains '.'
    · rw [wordToken, wordToken, if_pos dotted, if_pos dotted]
    cases found : Keyword.ofSpelling? (String.ofList word) with
    | none => simp only [wordToken, if_neg dotted, found]
    | some reserved =>
      have noDot : rest.head? ≠ some '.' := by
        intro dot
        have plain : wordToken word rest = .ident (String.ofList word) := by
          simp only [wordToken, if_neg dotted, found, if_pos dot]
        exact absurd (found.symm.trans (kept rfl _ plain)) (by simp)
      simp only [wordToken, if_neg dotted, found, if_neg noDot]
      rfl
  · rw [wordToken, wordToken, head?_stable pre more]

theorem piece_line (cs : List Char) :
    piece '/' ('/' :: cs) = ('/' :: cs.takeWhile (· ≠ '\n'), none) := by
  simp [piece, isSpace, startsWord]

theorem piece_block (cs : List Char) : piece '/' ('*' :: cs) =
    ('*' :: (commentBody cs).1, if (commentBody cs).2 then none
      else some (.unknown (String.ofList ('/' :: '*' :: (commentBody cs).1)))) := by
  simp only [piece, List.tail_cons]
  rcases commentBody cs with ⟨body, _ | _⟩ <;> simp [isSpace, startsWord]

theorem piece_pathSep (cs : List Char) :
    piece ':' (':' :: cs) = ([':'], some (.punct .pathSep)) := by
  simp [piece, isSpace, startsWord]

/-- A piece is settled by its own characters, but for a reserved word that a dot makes an
identifier. -/
theorem piece_stable (pre : cs' <+: cs) (within : (piece c cs).1 <+: cs')
    (kept : cs' = (piece c cs).1 → ∀ name, (piece c cs).2 = some (.ident name) →
      Keyword.ofSpelling? name = none) : piece c cs' = piece c cs := by
  have absent : ∀ {d e : Char}, ¬ (c = d && cs.head? = some e) = true →
      ¬ (c = d && cs'.head? = some e) = true := by
    intro d e other
    simp only [Bool.and_eq_true, decide_eq_true_eq, not_and] at other ⊢
    exact fun same => head?_ne_stable pre (other same)
  fun_cases piece c cs with
  | case1 space =>
    rw [piece, if_pos space] at within
    rw [piece, if_pos space, takeWhile_stable pre within]
  | case2 noSpace starts more =>
    rw [piece, if_neg noSpace, if_pos starts] at within kept
    rw [piece, if_neg noSpace, if_pos starts, wordRest_stable pre within]
    dsimp only at within kept ⊢
    have behind : cs'.drop more.length <+: cs.drop more.length := pre.drop _
    rw [wordToken_stable behind fun none name same => ?_]
    refine kept ?_ name (congrArg some same)
    obtain ⟨rest, rfl⟩ := within
    rw [List.drop_left] at none
    rw [none, List.append_nil]
  | case3 noSpace noWord digit more =>
    rw [piece, if_neg noSpace, if_neg noWord, if_pos digit] at within
    rw [piece, if_neg noSpace, if_neg noWord, if_pos digit, numberRest_stable pre within]
  | case4 noSpace noWord noDigit quote body eq
  | case5 noSpace noWord noDigit quote body eq =>
    simp only [piece, if_neg noSpace, if_neg noWord, if_neg noDigit, if_pos quote, eq] at within ⊢
    rw [stringBody_stable pre (by simpa [eq] using within), eq]
  | case6 _ _ _ _ slashes =>
    obtain ⟨rfl, next⟩ : c = '/' ∧ cs.head? = some '/' := by simpa using slashes
    obtain ⟨rest, rfl⟩ := List.head?_eq_some_iff.mp next
    rw [piece_line] at within
    obtain ⟨ds, rfl, behind, within⟩ := exists_tail pre within
    rw [piece_line, takeWhile_stable behind within]
    rfl
  | case7 _ _ _ _ _ opens body eq
  | case8 _ _ _ _ _ opens body eq =>
    obtain ⟨rfl, next⟩ : c = '/' ∧ cs.head? = some '*' := by simpa using opens
    obtain ⟨rest, rfl⟩ := List.head?_eq_some_iff.mp next
    rw [List.tail_cons] at eq
    rw [piece_block, eq] at within
    obtain ⟨ds, rfl, behind, within⟩ := exists_tail pre within
    rw [piece_block, commentBody_stable behind (eq ▸ within), eq]
    rfl
  | case9 _ _ _ _ _ _ colons =>
    obtain ⟨rfl, next⟩ : c = ':' ∧ cs.head? = some ':' := by simpa using colons
    obtain ⟨rest, rfl⟩ := List.head?_eq_some_iff.mp next
    rw [piece_pathSep] at within
    obtain ⟨ds, rfl, -, -⟩ := exists_tail pre within
    rw [piece_pathSep]
  | case10 noSpace noWord noDigit noQuote noSlashes noOpens noColons mark eq
  | case11 noSpace noWord noDigit noQuote noSlashes noOpens noColons eq =>
    rw [piece, if_neg noSpace, if_neg noWord, if_neg noDigit, if_neg noQuote,
      if_neg (absent noSlashes), if_neg (absent noOpens), if_neg (absent noColons), eq]

/-! ### The scan -/

/-- Induction along the pieces of a text. -/
theorem scan_pieces {motive : List Char → Nat → Prop} (nil : ∀ start, motive [] start)
    (token : ∀ (c : Char) (more rest : List Char) (token : Token) (start : Nat),
      piece c (more ++ rest) = (more, some token) →
        motive rest (start + Text.byteLength (c :: more)) → motive (c :: (more ++ rest)) start)
    (skip : ∀ (c : Char) (more rest : List Char) (start : Nat),
      piece c (more ++ rest) = (more, none) →
        motive rest (start + Text.byteLength (c :: more)) → motive (c :: (more ++ rest)) start)
    (cs : List Char) (start : Nat) : motive cs start := by
  induction cs, start using scan.induct with
  | case1 start => exact nil start
  | case2 c cs start more span found eq ih =>
    have cut := cuts_piece c cs
    rw [eq] at cut
    obtain ⟨rfl, -⟩ := cut
    rw [List.drop_left] at ih
    exact token _ _ _ _ _ eq ih
  | case3 c cs start more span eq ih =>
    have cut := cuts_piece c cs
    rw [eq] at cut
    obtain ⟨⟩ | ⟨rfl, -⟩ := cut
    rw [List.drop_left] at ih
    exact skip _ _ _ _ eq ih

/-- The scan of what is left where a token begins. -/
theorem scan_behind {start : Nat} {front more : List Lexeme} {first : Lexeme}
    (h : scan cs start = front ++ first :: more) : ∃ before rest, cs = before ++ rest ∧
      first.span.start = start + Text.byteLength before ∧
        scan rest first.span.start = first :: more := by
  induction cs, start using scan_pieces generalizing front with
  | nil => simp [scan] at h
  | token c taken rest token start cut ih =>
    cases front with
    | nil =>
      have whole := h
      rw [scan_of_piece cut] at h
      obtain ⟨rfl, -⟩ := List.cons.inj h
      exact ⟨[], _, rfl, rfl, whole⟩
    | cons l front =>
      rw [scan_of_piece cut] at h
      obtain ⟨before, rest, rfl, begins, left⟩ := ih (List.cons.inj h).2
      refine ⟨c :: taken ++ before, rest, by simp, ?_, left⟩
      rw [begins, Text.byteLength_append, Nat.add_assoc]
  | skip c taken rest start cut ih =>
    rw [scan_of_skip cut] at h
    obtain ⟨before, rest, rfl, begins, left⟩ := ih h
    refine ⟨c :: taken ++ before, rest, by simp, ?_, left⟩
    rw [begins, Text.byteLength_append, Nat.add_assoc]

/-- A piece is the same when less of the text comes after it. -/
theorem piece_of_kept {c : Char} {more word after : List Char} {token? : Option Token}
    (cut : piece c (more ++ (word ++ after)) = (more, token?))
    (kept : word = [] → ∀ name, token? = some (.ident name) → Keyword.ofSpelling? name = none) :
    piece c (more ++ word) = (more, token?) := by
  rw [← cut]
  refine piece_stable ?_ ?_ ?_
  · rw [← List.append_assoc]
    exact List.prefix_append _ _
  · rw [cut]
    exact List.prefix_append _ _
  · rw [cut]
    exact fun none => kept (by simpa using none)

/-- The tokens up to the end of one of them are cut off alike if nothing comes after. -/
theorem scan_front {start : Nat} {used back : List Lexeme} {last : Lexeme}
    (h : scan cs start = used ++ back) (ends : used.getLast? = some last)
    (kept : ∀ name, last.token = .ident name → Keyword.ofSpelling? name = none) :
    ∃ word after, cs = word ++ after ∧ last.span.stop = start + Text.byteLength word ∧
      ∀ start', (scan word start').map (·.token) = used.map (·.token) := by
  induction cs, start using scan_pieces generalizing used with
  | nil =>
    rw [scan, eq_comm, List.append_eq_nil_iff] at h
    rw [h.1] at ends
    cases ends
  | token c taken rest token start cut ih =>
    have nonempty : used ≠ [] := List.getLast?_isSome.mp (by rw [ends, Option.isSome_some])
    obtain ⟨first, used, rfl⟩ := List.exists_cons_of_ne_nil nonempty
    rw [scan_of_piece cut] at h
    obtain ⟨rfl, behind⟩ := List.cons.inj h
    cases used with
    | nil =>
      obtain rfl := Option.some.inj ends
      have cut : piece c (taken ++ []) = (taken, some token) :=
        piece_of_kept cut fun _ name same => kept name (Option.some.inj same)
      refine ⟨c :: taken, rest, rfl, rfl, fun start' => ?_⟩
      rw [← List.append_nil taken, scan_of_piece cut, scan]
      rfl
    | cons second used =>
      rw [List.getLast?_cons_cons] at ends
      obtain ⟨word, after, rfl, stop, same⟩ := ih behind ends
      have cut := piece_of_kept cut fun none => by
        have scanned := same 0
        rw [none, scan] at scanned
        cases scanned
      refine ⟨c :: (taken ++ word), after, by simp, ?_, fun start' => ?_⟩
      · rw [stop, ← List.cons_append, Text.byteLength_append, Nat.add_assoc]
      · rw [scan_of_piece cut, List.map_cons, same]
        rfl
  | skip c taken rest start cut ih =>
    rw [scan_of_skip cut] at h
    obtain ⟨word, after, rfl, stop, same⟩ := ih h ends
    have cut := piece_of_kept cut fun _ name none => by cases none
    refine ⟨c :: (taken ++ word), after, by simp, ?_, fun start' => ?_⟩
    · rw [stop, ← List.cons_append, Text.byteLength_append, Nat.add_assoc]
    · rw [scan_of_skip cut, same]

end Token.Lexer

/-- The slice from the beginning of one token to the end of another is cut into the tokens between
the two, if the last of them is no reserved word that a dot has made an identifier. -/
theorem map_token_lex_slice {source : String} {front used back : List Lexeme} {first last : Lexeme}
    (h : lex source = front ++ used ++ back) (begins : used.head? = some first)
    (ends : used.getLast? = some last)
    (kept : ∀ name, last.token = .ident name → Keyword.ofSpelling? name = none) :
    (lex (Text.slice source first.span.start last.span.stop)).map (·.token) =
      used.map (·.token) := by
  obtain ⟨more, rfl⟩ := List.head?_eq_some_iff.mp begins
  rw [List.append_assoc] at h
  obtain ⟨before, rest, text, start, left⟩ := Token.Lexer.scan_behind h
  obtain ⟨word, after, rfl, stop, same⟩ := Token.Lexer.scan_front left ends kept
  rw [← List.append_assoc] at text
  rw [Nat.zero_add] at start
  rw [stop, start, ← Text.byteLength_append, Text.slice_eq text, lex, String.toList_ofList]
  exact same 0

/-- Without the dot after it, a reserved word is one again. -/
example : lex "as." = [⟨.ident "as", .ofLength 0 2⟩, ⟨.unknown ".", .ofLength 2 1⟩] ∧
    lex (Text.slice "as." 0 2) = [⟨.keyword .asWord, .ofLength 0 2⟩] := by
  decide +kernel

end LetModules
