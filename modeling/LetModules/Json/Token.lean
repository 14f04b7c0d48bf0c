import LetModules.Json

/-!
The tokens of a JSON text. A text that is no row of tokens with blanks between them has none. Each
token takes at least one character, so that cutting a text into tokens ends.
-/

namespace LetModules.Json

/-- A bracket, a mark between values, or a value that is no container. -/
inductive Token where
  | openArray
  | closeArray
  | openObject
  | closeObject
  | comma
  | colon
  | null
  | bool (value : Bool)
  | number (spelling : String)
  | string (content : Literal)
  deriving DecidableEq, Repr

/-- The characters that may stand between tokens. -/
def isBlank (c : Char) : Bool := c = ' ' || c = '\t' || c = '\n' || c = '\r'

/-! ### Strings -/

/-- The character behind a one-letter escape. -/
def escape? : Char → Option Char
  | '"' => some '"'
  | '\\' => some '\\'
  | '/' => some '/'
  | 'b' => some '\x08'
  | 'f' => some '\x0c'
  | 'n' => some '\n'
  | 'r' => some '\r'
  | 't' => some '\t'
  | _ => none

/-- The value of a hexadecimal digit. -/
def hexDigit? (c : Char) : Option Nat :=
  if '0' ≤ c ∧ c ≤ '9' then some (c.toNat - '0'.toNat)
  else if 'a' ≤ c ∧ c ≤ 'f' then some (c.toNat - 'a'.toNat + 10)
  else if 'A' ≤ c ∧ c ≤ 'F' then some (c.toNat - 'A'.toNat + 10)
  else none

/-- The number that hexadecimal digits write. -/
def hexNumber? (digits : List Char) : Option Nat :=
  digits.foldlM (fun n c => (hexDigit? c).map (16 * n + ·)) 0

/-- What an escape with four hexadecimal digits stands for. -/
def pieceOf (code : Nat) : Piece :=
  if 0xD800 ≤ code ∧ code ≤ 0xDFFF then .half code else .char (Char.ofNat code)

/-- The character that two neighbouring halves make. -/
def pair? (high low : Nat) : Option Char :=
  if high < 0xDC00 ∧ 0xDC00 ≤ low then
    some (Char.ofNat (0x10000 + (high - 0xD800) * 0x400 + (low - 0xDC00)))
  else none

/-- Puts a piece in front of a string, joining a half to the half that follows it. -/
def joinHalf : Piece → Literal → Literal
  | .half high, .half low :: rest =>
    match pair? high low with
    | some c => .char c :: rest
    | none => .half high :: .half low :: rest
  | piece, rest => piece :: rest

/-- The content of a string after its opening quote, and what follows the closing one. Control
characters must be escaped. -/
def stringAfterQuote : List Char → Option (Literal × List Char)
  | [] => none
  | '"' :: rest => some ([], rest)
  | '\\' :: 'u' :: a :: b :: c :: d :: rest => do
    let code ← hexNumber? [a, b, c, d]
    let (content, after) ← stringAfterQuote rest
    some (joinHalf (pieceOf code) content, after)
  | '\\' :: letter :: rest => do
    let c ← escape? letter
    let (content, after) ← stringAfterQuote rest
    some (.char c :: content, after)
  | c :: rest =>
    if c < ' ' then none
    else do
      let (content, after) ← stringAfterQuote rest
      some (.char c :: content, after)

theorem length_stringAfterQuote {cs rest : List Char} {content : Literal}
    (h : stringAfterQuote cs = some (content, rest)) : rest.length < cs.length := by
  fun_induction stringAfterQuote cs generalizing content rest with
  | case1 => simp at h
  | case2 => simp_all
  | case3 a b c d tail ih =>
    simp only [Option.bind_eq_bind, Option.bind_eq_some_iff, Option.some.injEq, Prod.mk.injEq] at h
    obtain ⟨_, _, ⟨_, _⟩, h, _, rfl⟩ := h
    have := ih h
    simp only [List.length_cons]
    omega
  | case4 letter tail _ ih =>
    simp only [Option.bind_eq_bind, Option.bind_eq_some_iff, Option.some.injEq, Prod.mk.injEq] at h
    obtain ⟨_, _, ⟨_, _⟩, h, _, rfl⟩ := h
    have := ih h
    simp only [List.length_cons]
    omega
  | case5 => simp at h
  | case6 c tail _ _ _ _ ih =>
    simp only [Option.bind_eq_bind, Option.bind_eq_some_iff, Option.some.injEq, Prod.mk.injEq] at h
    obtain ⟨⟨_, _⟩, h, _, rfl⟩ := h
    have := ih h
    simp only [List.length_cons]
    omega

/-! ### Numbers -/

/-- At least one digit, and what follows the digits. -/
def digits? (cs : List Char) : Option (List Char × List Char) :=
  match cs.takeWhile Char.isDigit with
  | [] => none
  | digits => some (digits, cs.dropWhile Char.isDigit)

theorem length_digits? {cs digits rest : List Char} (h : digits? cs = some (digits, rest)) :
    rest.length < cs.length := by
  have whole : cs.takeWhile Char.isDigit ++ cs.dropWhile Char.isDigit = cs :=
    List.takeWhile_append_dropWhile
  have count := congrArg List.length whole
  unfold digits? at h
  split at h
  · simp at h
  · next digits' _ =>
    simp only [Option.some.injEq, Prod.mk.injEq] at h
    obtain ⟨rfl, rfl⟩ := h
    have : 0 < (cs.takeWhile Char.isDigit).length := by
      cases hd : cs.takeWhile Char.isDigit with
      | nil => contradiction
      | cons => simp
    simp only [List.length_append] at count
    omega

/-- The whole part of a number, which starts with zero only if it is zero. -/
def wholePart? : List Char → Option (List Char × List Char)
  | '0' :: rest => some (['0'], rest)
  | cs => digits? cs

theorem length_wholePart? {cs digits rest : List Char} (h : wholePart? cs = some (digits, rest)) :
    rest.length < cs.length := by
  unfold wholePart? at h
  split at h
  · simp_all
  · exact length_digits? h

/-- The fraction of a number, if there is a point. -/
def fraction? : List Char → Option (List Char × List Char)
  | '.' :: rest => (digits? rest).map fun (digits, rest) => ('.' :: digits, rest)
  | cs => some ([], cs)

theorem length_fraction? {cs digits rest : List Char} (h : fraction? cs = some (digits, rest)) :
    rest.length ≤ cs.length := by
  unfold fraction? at h
  split at h
  · simp only [Option.map_eq_some_iff, Prod.mk.injEq] at h
    obtain ⟨⟨_, _⟩, h, _, rfl⟩ := h
    have := length_digits? h
    simp only [List.length_cons]
    omega
  · simp_all

/-- The sign of an exponent, if there is one. -/
def sign : List Char → List Char × List Char
  | '+' :: rest => (['+'], rest)
  | '-' :: rest => (['-'], rest)
  | cs => ([], cs)

theorem length_sign (cs : List Char) : (sign cs).2.length ≤ cs.length := by
  unfold sign
  split <;> simp

/-- The digits of an exponent after its letter, with their sign. -/
def exponentAfter? (letter : Char) (cs : List Char) : Option (List Char × List Char) :=
  (digits? (sign cs).2).map fun (digits, rest) => (letter :: (sign cs).1 ++ digits, rest)

theorem length_exponentAfter? {letter : Char} {cs digits rest : List Char}
    (h : exponentAfter? letter cs = some (digits, rest)) : rest.length < cs.length := by
  simp only [exponentAfter?, Option.map_eq_some_iff, Prod.mk.injEq] at h
  obtain ⟨⟨_, _⟩, h, _, rfl⟩ := h
  have := length_digits? h
  have := length_sign cs
  simp only
  omega

/-- The exponent of a number, if there is one. -/
def exponent? : List Char → Option (List Char × List Char)
  | 'e' :: rest => exponentAfter? 'e' rest
  | 'E' :: rest => exponentAfter? 'E' rest
  | cs => some ([], cs)

theorem length_exponent? {cs digits rest : List Char} (h : exponent? cs = some (digits, rest)) :
    rest.length ≤ cs.length := by
  unfold exponent? at h
  split at h
  · have := length_exponentAfter? h
    simp only [List.length_cons]
    omega
  · have := length_exponentAfter? h
    simp only [List.length_cons]
    omega
  · simp_all

/-- A number without its minus. -/
def magnitude? (cs : List Char) : Option (List Char × List Char) := do
  let (whole, cs) ← wholePart? cs
  let (fraction, cs) ← fraction? cs
  let (exponent, cs) ← exponent? cs
  some (whole ++ fraction ++ exponent, cs)

theorem length_magnitude? {cs digits rest : List Char} (h : magnitude? cs = some (digits, rest)) :
    rest.length < cs.length := by
  simp only [magnitude?, Option.bind_eq_bind, Option.bind_eq_some_iff, Option.some.injEq,
    Prod.mk.injEq] at h
  obtain ⟨⟨_, _⟩, hw, ⟨_, _⟩, hf, ⟨_, _⟩, he, _, rfl⟩ := h
  have := length_wholePart? hw
  have := length_fraction? hf
  have := length_exponent? he
  simp only at *
  omega

/-- A number and what follows it. -/
def number? : List Char → Option (List Char × List Char)
  | '-' :: rest => (magnitude? rest).map fun (digits, rest) => ('-' :: digits, rest)
  | cs => magnitude? cs

theorem length_number? {cs digits rest : List Char} (h : number? cs = some (digits, rest)) :
    rest.length < cs.length := by
  unfold number? at h
  split at h
  · simp only [Option.map_eq_some_iff, Prod.mk.injEq] at h
    obtain ⟨⟨_, _⟩, h, _, rfl⟩ := h
    have := length_magnitude? h
    simp only [List.length_cons]
    omega
  · exact length_magnitude? h

/-! ### All tokens -/

/-- The token at the start of a text, and what follows it. -/
def next? : List Char → Option (Token × List Char)
  | '[' :: rest => some (.openArray, rest)
  | ']' :: rest => some (.closeArray, rest)
  | '{' :: rest => some (.openObject, rest)
  | '}' :: rest => some (.closeObject, rest)
  | ',' :: rest => some (.comma, rest)
  | ':' :: rest => some (.colon, rest)
  | '"' :: rest => (stringAfterQuote rest).map fun (content, rest) => (.string content, rest)
  | 'n' :: 'u' :: 'l' :: 'l' :: rest => some (.null, rest)
  | 't' :: 'r' :: 'u' :: 'e' :: rest => some (.bool true, rest)
  | 'f' :: 'a' :: 'l' :: 's' :: 'e' :: rest => some (.bool false, rest)
  | cs => (number? cs).map fun (digits, rest) => (.number (String.ofList digits), rest)

theorem length_next? {cs rest : List Char} {token : Token} (h : next? cs = some (token, rest)) :
    rest.length < cs.length := by
  unfold next? at h
  split at h
  case h_7 =>
    simp only [Option.map_eq_some_iff, Prod.mk.injEq] at h
    obtain ⟨⟨_, _⟩, h, _, rfl⟩ := h
    have := length_stringAfterQuote h
    simp only [List.length_cons]
    omega
  case h_11 =>
    simp only [Option.map_eq_some_iff, Prod.mk.injEq] at h
    obtain ⟨⟨_, _⟩, h, _, rfl⟩ := h
    exact length_number? h
  all_goals
    simp only [Option.some.injEq, Prod.mk.injEq] at h
    obtain ⟨_, rfl⟩ := h
    simp only [List.length_cons]
    omega

/-- All tokens of a text. -/
def tokens? (cs : List Char) : Option (List Token) :=
  match _h : cs with
  | [] => some []
  | c :: rest =>
    if isBlank c then tokens? rest
    else
      match _h' : next? (c :: rest) with
      | some (token, after) => (tokens? after).map (token :: ·)
      | none => none
termination_by cs.length
decreasing_by
  · simp
  · have := length_next? _h'
    simp_all

end LetModules.Json
