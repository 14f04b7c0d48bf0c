import LetModules.Proofs.Token.Lossless

/-!
Printing tokens with separators between them, and cutting the printed text back into the same tokens
at the same places (`lex_text`). A separator begins with a blank character or a slash, and neither
goes on with a word, a number or a mark; so a token that a separator or the end of the text follows
is cut off exactly where it was printed, whatever its payload and whatever the separator holds.
-/

namespace LetModules

/-! ### What is printed -/

/-- A letter or an underscore, and then letters, digits and underscores. -/
def IsWord : List Char → Prop
  | [] => False
  | c :: cs => (c.isAlpha ∨ c = '_') ∧ ∀ d ∈ cs, d.isAlphanum ∨ d = '_'

/-- Two or more words with dots between them. -/
inductive IsDotted : List Char → Prop
  | pair {a b : List Char} : IsWord a → IsWord b → IsDotted (a ++ '.' :: b)
  | more {a cs : List Char} : IsWord a → IsDotted cs → IsDotted (a ++ '.' :: cs)

/-- One digit or more. -/
def AreDigits (cs : List Char) : Prop := cs ≠ [] ∧ ∀ c ∈ cs, c.isDigit

/-- Digits, and possibly a point with further digits. -/
inductive IsNumeral : List Char → Prop
  | whole {cs : List Char} : AreDigits cs → IsNumeral cs
  | fraction {cs ds : List Char} : AreDigits cs → AreDigits ds → IsNumeral (cs ++ '.' :: ds)

/-- The inside of a string literal: quotes and backslashes stand behind a backslash only, and behind
that may stand anything but a line feed. -/
inductive IsLiteral : List Char → Prop
  | nil : IsLiteral []
  | plain {c : Char} {cs : List Char} : c ≠ '"' → c ≠ '\\' → IsLiteral cs → IsLiteral (c :: cs)
  | escape {c : Char} {cs : List Char} : c ≠ '\n' → IsLiteral cs → IsLiteral ('\\' :: c :: cs)

/-- The payload of the token has the form of its kind. Input that is no token has none. -/
def Token.Fits : Token → Prop
  | .keyword _ | .punct _ => True
  | .text body => IsLiteral body.toList
  | .number digits => IsNumeral digits.toList
  | .dotted name => IsDotted name.toList
  | .ident name => IsWord name.toList ∧ ∀ word : Keyword, word.spelling ≠ name
  | .unknown _ => False

/-- What may be printed between tokens: a run of blank characters, a block comment, or a line
comment with the end of its line. -/
inductive Separator where
  | blank (run : List Char) (nonempty : run ≠ [])
      (blank : ∀ c ∈ run, c ∈ [' ', '\t', '\n', '\r', '\x0c'])
  | block (body : List Char) (unended : ¬ ['*', '/'] <:+: body)
  | line (body : List Char) (within : '\n' ∉ body)

/-- One blank. -/
def Separator.space : Separator := .blank [' '] (by simp) (by simp)

/-- The separator as it is written. -/
def Separator.chars : Separator → List Char
  | .blank run .. => run
  | .block body _ => '/' :: '*' :: body ++ ['*', '/']
  | .line body _ => '/' :: '/' :: body ++ ['\n']

/-- Tokens as they are printed: separators, and then each token with the separators after it. Only
behind the last token there may be none. -/
structure Printing where
  lead : List Separator
  entries : List (Token × List Separator)
  fits : ∀ entry ∈ entries, entry.1.Fits
  spaced : ∀ entry ∈ entries.dropLast, entry.2 ≠ []

namespace Printing

/-- Separators one after the other. -/
def gap (separators : List Separator) : List Char := separators.flatMap Separator.chars

/-- Tokens, each with the separators after it. -/
def printed : List (Token × List Separator) → List Char
  | [] => []
  | (token, after) :: rest => token.written.toList ++ (gap after ++ printed rest)

/-- The tokens at the places where they are printed, if printing begins at byte `start`. -/
def placed (start : Nat) : List (Token × List Separator) → List Lexeme
  | [] => []
  | (token, after) :: rest =>
    let size := Text.byteLength token.written.toList
    ⟨token, .ofLength start size⟩ :: placed (start + size + Text.byteLength (gap after)) rest

/-- The printed text. -/
def text (printing : Printing) : String :=
  String.ofList (gap printing.lead ++ printed printing.entries)

/-- The tokens that are printed. -/
def tokens (printing : Printing) : List Token := printing.entries.map (·.1)

/-- The tokens at the places where they are printed. -/
def lexemes (printing : Printing) : List Lexeme :=
  placed (Text.byteLength (gap printing.lead)) printing.entries

theorem map_token_placed : ∀ (entries : List (Token × List Separator)) (start : Nat),
    (placed start entries).map (·.token) = entries.map (·.1)
  | [], _ => rfl
  | (_, _) :: rest, _ => by
    rw [placed, List.map_cons, List.map_cons, map_token_placed rest]

theorem map_token_lexemes (printing : Printing) :
    printing.lexemes.map (·.token) = printing.tokens := map_token_placed _ _

end Printing

namespace Token.Lexer

/-- What may follow a token that is cut off where it was printed: nothing, or what a separator
begins with. -/
def Stops (rest : List Char) : Prop := ∀ c ∈ rest.head?, isSpace c = true ∨ c = '/'

variable {rest : List Char}

/-- Nothing that goes on with a token is what a separator begins with. -/
theorem not_of_stops {c : Char} (stop : isSpace c = true ∨ c = '/') :
    continuesWord c = false ∧ c.isDigit = false ∧ c ≠ '.' ∧ c ≠ ':' := by
  rw [isSpace_iff] at stop
  simp only [List.mem_cons, List.not_mem_nil, or_false] at stop
  rcases stop with (rfl | rfl | rfl | rfl | rfl) | rfl <;> decide

/-! ### Words and numbers -/

theorem wordRest_of_stops (stops : Stops rest) : wordRest rest = [] := by
  cases rest with
  | nil => rfl
  | cons c cs =>
    obtain ⟨other, -, noDot, -⟩ := not_of_stops (stops c rfl)
    rw [wordRest.eq_3 _ _ fun _ _ dot => absurd dot noDot]
    simp [other]

theorem wordRest_append {cs : List Char} (inside : ∀ c ∈ cs, continuesWord c = true)
    (rest : List Char) : wordRest (cs ++ rest) = cs ++ wordRest rest := by
  induction cs with
  | nil => rfl
  | cons c cs ih =>
    rw [List.forall_mem_cons] at inside
    obtain ⟨first, inside⟩ := inside
    have noDot : c ≠ '.' := by
      rintro rfl
      exact absurd first (by decide)
    rw [List.cons_append, wordRest.eq_3 _ _ fun _ _ dot => absurd dot noDot, ih inside,
      if_pos first, List.cons_append]

/-- The rest of words with dots between them is cut off as a whole. -/
structure Worded (c : Char) (cs : List Char) : Prop where
  first : startsWord c = true
  whole : ∀ rest, Stops rest → wordRest (cs ++ rest) = cs

theorem exists_of_isWord {cs : List Char} (word : IsWord cs) : ∃ c tail, cs = c :: tail ∧
    startsWord c = true ∧ ∀ d ∈ tail, continuesWord d = true := by
  cases cs with
  | nil => exact word.elim
  | cons c tail =>
    obtain ⟨first, inside⟩ := word
    exact ⟨c, tail, rfl, by simpa [startsWord] using first, by simpa [continuesWord] using inside⟩

theorem Worded.word {c : Char} {cs : List Char} (first : startsWord c = true)
    (inside : ∀ d ∈ cs, continuesWord d = true) : Worded c cs := by
  refine ⟨first, fun rest stops => ?_⟩
  rw [wordRest_append inside, wordRest_of_stops stops, List.append_nil]

theorem Worded.cons {c d : Char} {cs ds : List Char} (first : startsWord c = true)
    (inside : ∀ e ∈ cs, continuesWord e = true) (more : Worded d ds) :
    Worded c (cs ++ '.' :: d :: ds) := by
  refine ⟨first, fun rest stops => ?_⟩
  rw [List.append_assoc, wordRest_append inside]
  simp [wordRest, more.first, more.whole rest stops]

theorem exists_worded_of_isDotted {cs : List Char} (dotted : IsDotted cs) :
    ∃ c tail, cs = c :: tail ∧ Worded c tail := by
  induction dotted with
  | pair a b =>
    obtain ⟨c, cs, rfl, first, inside⟩ := exists_of_isWord a
    obtain ⟨d, ds, rfl, first', inside'⟩ := exists_of_isWord b
    exact ⟨c, _, rfl, .cons first inside (.word first' inside')⟩
  | more a _ ih =>
    obtain ⟨c, cs, rfl, first, inside⟩ := exists_of_isWord a
    obtain ⟨d, ds, rfl, worded⟩ := ih
    exact ⟨c, _, rfl, .cons first inside worded⟩

theorem takeWhile_isDigit_of_stops (stops : Stops rest) : rest.takeWhile Char.isDigit = [] := by
  cases rest with
  | nil => rfl
  | cons c cs => simp [(not_of_stops (stops c rfl)).2.1]

theorem dropWhile_isDigit_of_stops (stops : Stops rest) : rest.dropWhile Char.isDigit = rest := by
  cases rest with
  | nil => rfl
  | cons c cs => simp [(not_of_stops (stops c rfl)).2.1]

/-- The rest of a number is cut off as a whole. -/
theorem exists_of_isNumeral {cs : List Char} (numeral : IsNumeral cs) : ∃ c tail, cs = c :: tail ∧
    c.isDigit = true ∧ ∀ rest, Stops rest → numberRest (tail ++ rest) = tail := by
  cases numeral with
  | whole digits =>
    obtain ⟨c, tail, rfl⟩ := List.exists_cons_of_ne_nil digits.1
    obtain ⟨first, inside⟩ := List.forall_mem_cons.mp digits.2
    refine ⟨c, tail, rfl, first, fun rest stops => ?_⟩
    rw [numberRest, List.takeWhile_append_of_pos inside, List.dropWhile_append_of_pos inside,
      takeWhile_isDigit_of_stops stops, dropWhile_isDigit_of_stops stops, List.append_nil]
    split
    · rename_i d ds
      exact absurd rfl (not_of_stops (stops '.' rfl)).2.2.1
    · rfl
  | @fraction _ ds digits part =>
    obtain ⟨c, tail, rfl⟩ := List.exists_cons_of_ne_nil digits.1
    obtain ⟨d, more, rfl⟩ := List.exists_cons_of_ne_nil part.1
    obtain ⟨first, inside⟩ := List.forall_mem_cons.mp digits.2
    obtain ⟨first', inside'⟩ := List.forall_mem_cons.mp part.2
    refine ⟨c, tail ++ '.' :: d :: more, rfl, first, fun rest stops => ?_⟩
    rw [List.append_assoc, List.cons_append, List.cons_append, numberRest,
      List.takeWhile_append_of_pos inside, List.dropWhile_append_of_pos inside,
      List.takeWhile_cons_of_neg (by simp), List.dropWhile_cons_of_neg (by simp)]
    simp only [first', if_true, List.append_nil]
    rw [List.takeWhile_append_of_pos inside', takeWhile_isDigit_of_stops stops, List.append_nil]

/-! ### Literals and comments -/

theorem stringBody_append {cs : List Char} (literal : IsLiteral cs) (rest : List Char) :
    stringBody (cs ++ '"' :: rest) = (cs, true) := by
  induction literal with
  | nil => simp [stringBody]
  | plain noQuote noBackslash _ ih =>
    rw [List.cons_append, stringBody.eq_5 _ _ noQuote noBackslash, ih]
  | escape noBreak _ ih =>
    rw [List.cons_append, List.cons_append, stringBody.eq_4, if_neg noBreak, ih]

/-- A block comment ends at the first mark that can end it. -/
theorem commentBody_append {cs : List Char} (unended : ¬ ['*', '/'] <:+: cs) (rest : List Char) :
    commentBody (cs ++ '*' :: '/' :: rest) = (cs ++ ['*', '/'], true) := by
  induction cs with
  | nil => simp [commentBody]
  | cons c cs ih =>
    rw [List.infix_cons_iff, not_or] at unended
    have notEnd : ∀ tail, c = '*' → cs ++ '*' :: '/' :: rest = '/' :: tail → False := by
      rintro tail rfl next
      cases cs with
      | nil => simp at next
      | cons d cs =>
        obtain ⟨rfl, -⟩ := List.cons.inj next
        exact unended.1 (by simp)
    rw [List.cons_append, commentBody.eq_3 _ _ notEnd, ih unended.2, List.cons_append]

/-! ### Tokens -/

theorem isSpace_of_startsWord {c : Char} (starts : startsWord c = true) : isSpace c = false := by
  by_contra space
  rw [Bool.not_eq_false, isSpace_iff] at space
  simp only [List.mem_cons, List.not_mem_nil, or_false] at space
  rcases space with rfl | rfl | rfl | rfl | rfl <;> exact absurd starts (by decide)

/-- Letters come after the digits. -/
theorem lt_val_of_isAlpha {c : Char} (letter : c.isAlpha = true) : '9'.val < c.val := by
  rcases (Bool.or_eq_true c.isUpper c.isLower).mp letter with upper | lower
  · obtain ⟨above, -⟩ : 'A'.val ≤ c.val ∧ c.val ≤ 'Z'.val := of_decide_eq_true upper
    exact UInt32.lt_of_lt_of_le (by decide) above
  · have within : (decide ('a'.val ≤ c.val) && decide (c.val ≤ 'z'.val)) = true := lower
    have above := of_decide_eq_true (Bool.and_eq_true_iff.mp within).1
    exact UInt32.lt_of_lt_of_le (by decide) above

theorem kinds_of_isDigit {c : Char} (digit : c.isDigit = true) :
    isSpace c = false ∧ startsWord c = false := by
  constructor
  · by_contra space
    rw [Bool.not_eq_false, isSpace_iff] at space
    simp only [List.mem_cons, List.not_mem_nil, or_false] at space
    rcases space with rfl | rfl | rfl | rfl | rfl <;> exact absurd digit (by decide)
  · by_contra starts
    rw [Bool.not_eq_false, startsWord, Bool.or_eq_true, decide_eq_true_eq] at starts
    rcases starts with letter | rfl
    · have within : (decide ('0'.val ≤ c.val) && decide (c.val ≤ '9'.val)) = true := digit
      have below := of_decide_eq_true (Bool.and_eq_true_iff.mp within).2
      exact UInt32.not_le.mpr (lt_val_of_isAlpha letter) below
    · exact absurd digit (by decide)

theorem dot_mem_of_isDotted {cs : List Char} (dotted : IsDotted cs) : '.' ∈ cs := by
  cases dotted <;> simp

theorem dot_not_mem_of_isWord {cs : List Char} (word : IsWord cs) : '.' ∉ cs := by
  obtain ⟨c, tail, rfl, first, inside⟩ := exists_of_isWord word
  intro mem
  rcases List.mem_cons.mp mem with rfl | mem
  · exact absurd first (by decide)
  · exact absurd (inside _ mem) (by decide)

theorem wordToken_of_isDotted {cs : List Char} (dotted : IsDotted cs) (rest : List Char) :
    wordToken cs rest = .dotted (String.ofList cs) := by
  rw [wordToken, if_pos (by simpa using dot_mem_of_isDotted dotted)]

theorem ofSpelling?_spelling (word : Keyword) : Keyword.ofSpelling? word.spelling = some word := by
  cases word <;> decide

theorem ofSpelling?_eq_none {name : String} (other : ∀ word : Keyword, word.spelling ≠ name) :
    Keyword.ofSpelling? name = none := by
  rw [Keyword.ofSpelling?, List.find?_eq_none]
  intro word _
  simpa using other word

theorem wordToken_of_isWord {cs : List Char} (word : IsWord cs)
    (other : ∀ word : Keyword, word.spelling ≠ String.ofList cs) (rest : List Char) :
    wordToken cs rest = .ident (String.ofList cs) := by
  rw [wordToken, if_neg (by simpa using dot_not_mem_of_isWord word), ofSpelling?_eq_none other]

theorem isWord_spelling (word : Keyword) : IsWord word.spelling.toList := by
  cases word <;> simp [Keyword.spelling, IsWord]

theorem wordToken_spelling (word : Keyword) (stops : Stops rest) :
    wordToken word.spelling.toList rest = .keyword word := by
  have noDot : rest.head? ≠ some '.' := by
    intro dot
    exact absurd rfl (not_of_stops (stops '.' dot)).2.2.1
  rw [wordToken, if_neg (by simpa using dot_not_mem_of_isWord (isWord_spelling word)),
    String.ofList_toList, ofSpelling?_spelling]
  simp [noDot]

/-- Words with dots between them are one piece. -/
theorem piece_of_worded {c : Char} {cs : List Char} (worded : Worded c cs) (stops : Stops rest) :
    piece c (cs ++ rest) = (cs, some (wordToken (c :: cs) rest)) := by
  simp [piece, isSpace_of_startsWord worded.first, worded.first, worded.whole rest stops]

theorem piece_of_isWord {c : Char} {cs : List Char} (word : IsWord (c :: cs))
    (stops : Stops rest) : piece c (cs ++ rest) = (cs, some (wordToken (c :: cs) rest)) := by
  obtain ⟨_, _, same, first, inside⟩ := exists_of_isWord word
  obtain ⟨rfl, rfl⟩ := List.cons.inj same
  exact piece_of_worded (.word first inside) stops

theorem piece_spelling {mark : Punct} {c : Char} {cs : List Char}
    (spelled : mark.spelling.toList = c :: cs) (stops : Stops rest) :
    piece c (cs ++ rest) = (cs, some (.punct mark)) := by
  have noColon : rest.head? ≠ some ':' := by
    intro colon
    exact absurd rfl (not_of_stops (stops ':' colon)).2.2.2
  cases mark <;> simp [Punct.spelling] at spelled <;> obtain ⟨rfl, rfl⟩ := spelled <;>
    simp [piece, isSpace, startsWord, punct?, noColon]

/-- A token that a separator or the end of the text follows is cut off as a whole. -/
theorem piece_written {token : Token} (fits : token.Fits) (stops : Stops rest) : ∃ c cs,
    token.written.toList = c :: cs ∧ piece c (cs ++ rest) = (cs, some token) := by
  cases token with
  | keyword word =>
    obtain ⟨c, cs, spelled, -⟩ := exists_of_isWord (isWord_spelling word)
    refine ⟨c, cs, spelled, ?_⟩
    rw [piece_of_isWord (spelled ▸ isWord_spelling word) stops, ← spelled,
      wordToken_spelling word stops]
  | punct mark =>
    obtain ⟨c, cs, spelled⟩ : ∃ c cs, mark.spelling.toList = c :: cs := by
      cases mark <;> exact ⟨_, _, rfl⟩
    exact ⟨c, cs, spelled, piece_spelling spelled stops⟩
  | text body =>
    refine ⟨'"', body.toList ++ ['"'], by simp [Token.written], ?_⟩
    rw [List.append_assoc]
    simp [piece, isSpace, startsWord, stringBody_append fits]
  | number digits =>
    obtain ⟨c, cs, spelled, digit, whole⟩ := exists_of_isNumeral fits
    obtain ⟨noSpace, noWord⟩ := kinds_of_isDigit digit
    refine ⟨c, cs, spelled, ?_⟩
    simp [piece, noSpace, noWord, digit, whole rest stops, ← spelled]
  | dotted name =>
    obtain ⟨c, cs, spelled, worded⟩ := exists_worded_of_isDotted fits
    refine ⟨c, cs, spelled, ?_⟩
    rw [piece_of_worded worded stops, wordToken_of_isDotted (spelled ▸ fits), ← spelled,
      String.ofList_toList]
  | ident name =>
    obtain ⟨word, other⟩ := fits
    obtain ⟨c, cs, spelled, -⟩ := exists_of_isWord word
    refine ⟨c, cs, spelled, ?_⟩
    rw [piece_of_isWord (spelled ▸ word) stops, ← spelled,
      wordToken_of_isWord word (by simpa using other), String.ofList_toList]
  | unknown input => exact fits.elim

/-! ### The scan -/

theorem scan_of_piece {c : Char} {more : List Char} {token : Token}
    (cut : piece c (more ++ rest) = (more, some token)) (start : Nat) :
    scan (c :: (more ++ rest)) start = ⟨token, .ofLength start (Text.byteLength (c :: more))⟩ ::
      scan rest (start + Text.byteLength (c :: more)) := by
  rw [scan, cut]
  simp [Span.ofLength]

theorem scan_of_skip {c : Char} {more : List Char} (cut : piece c (more ++ rest) = (more, none))
    (start : Nat) :
    scan (c :: (more ++ rest)) start = scan rest (start + Text.byteLength (c :: more)) := by
  rw [scan, cut]
  simp [Span.ofLength]

/-- Blank characters can be passed over one by one. -/
theorem scan_space {c : Char} (space : isSpace c = true) (cs : List Char) (start : Nat) :
    scan (c :: cs) start = scan cs (start + c.utf8Size) := by
  obtain ⟨run, after, rfl, blank, stop⟩ : ∃ run after, cs = run ++ after ∧
      (∀ d ∈ run, isSpace d = true) ∧ after.takeWhile isSpace = [] := by
    refine ⟨_, _, List.takeWhile_append_dropWhile.symm, fun d => List.mem_takeWhile_imp, ?_⟩
    simpa using List.dropWhile_get_zero_not isSpace cs
  have skip : ∀ (d : Char) (ds : List Char), isSpace d = true → (∀ e ∈ ds, isSpace e = true) →
      piece d (ds ++ after) = (ds, none) := by
    intro d ds first others
    simp [piece, first, List.takeWhile_append_of_pos others, stop]
  rw [scan_of_skip (skip c run space blank)]
  cases run with
  | nil => rfl
  | cons d ds =>
    rw [List.forall_mem_cons] at blank
    rw [List.cons_append, scan_of_skip (skip d ds blank.1 blank.2), Text.byteLength, Nat.add_assoc]

theorem scan_blanks {run : List Char} (blank : ∀ c ∈ run, isSpace c = true) (rest : List Char)
    (start : Nat) : scan (run ++ rest) start = scan rest (start + Text.byteLength run) := by
  induction run generalizing start with
  | nil => rfl
  | cons c cs ih =>
    rw [List.forall_mem_cons] at blank
    rw [List.cons_append, scan_space blank.1, ih blank.2, Text.byteLength, Nat.add_assoc]

theorem scan_separator (separator : Separator) (rest : List Char) (start : Nat) :
    scan (separator.chars ++ rest) start =
      scan rest (start + Text.byteLength separator.chars) := by
  cases separator with
  | blank run _ blank =>
    simp only [← isSpace_iff] at blank
    exact scan_blanks blank rest start
  | block body unended =>
    have cut : piece '/' ('*' :: body ++ ['*', '/'] ++ rest) =
        ('*' :: body ++ ['*', '/'], none) := by
      simp [piece, isSpace, startsWord, commentBody_append unended rest]
    exact scan_of_skip cut start
  | line body within =>
    have inLine : ∀ c ∈ body, (!decide (c = '\n')) = true := by
      intro c hc
      simpa using ne_of_mem_of_not_mem hc within
    have cut : piece '/' ('/' :: body ++ '\n' :: rest) = ('/' :: body, none) := by
      simp [piece, isSpace, startsWord, List.takeWhile_append_of_pos inLine]
    have split : (Separator.line body within).chars ++ rest =
        '/' :: ('/' :: body ++ '\n' :: rest) := by
      simp [Separator.chars]
    rw [split, scan_of_skip cut, scan_space (by decide)]
    simp [Separator.chars, Text.byteLength, Nat.add_assoc]

/-- Separators are passed over as a whole. -/
theorem scan_gap (separators : List Separator) (rest : List Char) (start : Nat) :
    scan (Printing.gap separators ++ rest) start =
      scan rest (start + Text.byteLength (Printing.gap separators)) := by
  induction separators generalizing start with
  | nil => rfl
  | cons separator separators ih =>
    rw [Printing.gap, List.flatMap_cons, List.append_assoc, scan_separator, ← Printing.gap, ih,
      Text.byteLength_append, Nat.add_assoc]

theorem stops_gap {separators : List Separator} (some_separator : separators ≠ [])
    (rest : List Char) : Stops (Printing.gap separators ++ rest) := by
  obtain ⟨separator, others, rfl⟩ := List.exists_cons_of_ne_nil some_separator
  rw [Printing.gap, List.flatMap_cons, List.append_assoc]
  cases separator with
  | blank run nonempty blank =>
    obtain ⟨c, cs, rfl⟩ := List.exists_cons_of_ne_nil nonempty
    intro d hd
    obtain rfl : c = d := by simpa [Separator.chars] using hd
    exact .inl ((isSpace_iff c).mpr (blank c List.mem_cons_self))
  | block body unended => simp [Stops, Separator.chars]
  | line body within => simp [Stops, Separator.chars]

/-- Tokens are found where they are printed. -/
theorem scan_printed : ∀ (entries : List (Token × List Separator)) (start : Nat),
    (∀ entry ∈ entries, entry.1.Fits) → (∀ entry ∈ entries.dropLast, entry.2 ≠ []) →
      scan (Printing.printed entries) start = Printing.placed start entries
  | [], start, _, _ => by simp [Printing.printed, Printing.placed, scan]
  | (token, after) :: rest, start, fits, spaced => by
    rw [List.forall_mem_cons] at fits
    have stops : Stops (Printing.gap after ++ Printing.printed rest) := by
      by_cases none_after : after = []
      · obtain rfl : rest = [] := by
          by_contra more
          exact spaced (token, after) (by simp [List.dropLast_cons_of_ne_nil more]) none_after
        simp [none_after, Printing.gap, Printing.printed, Stops]
      · exact stops_gap none_after _
    have others : ∀ entry ∈ rest.dropLast, entry.2 ≠ [] := by
      intro entry mem
      refine spaced entry ?_
      cases rest with
      | nil => simp at mem
      | cons next rest => simp [mem]
    obtain ⟨c, cs, spelled, cut⟩ := piece_written fits.1 stops
    rw [Printing.printed, Printing.placed, spelled, List.cons_append, scan_of_piece cut, scan_gap,
      scan_printed rest _ fits.2 others]

end Token.Lexer

/-- Cutting a printed text gives back the tokens that were printed, where they were printed. -/
theorem Printing.lex_text (printing : Printing) : lex printing.text = printing.lexemes := by
  rw [lex, text, String.toList_ofList, Token.Lexer.scan_gap, Nat.zero_add,
    Token.Lexer.scan_printed _ _ printing.fits printing.spaced]
  rfl

end LetModules
