/-!
Stretches of a source text, in bytes of its UTF-8 form.
-/

namespace LetModules.Text

/-- The number of bytes that the characters take. -/
def byteLength : List Char → Nat
  | [] => 0
  | c :: cs => c.utf8Size + byteLength cs

end LetModules.Text

namespace LetModules

/-- The bytes of a source text from `start` up to, not including, `stop`. -/
structure Span where
  start : Nat
  stop : Nat
  start_le_stop : start ≤ stop := by omega
  deriving DecidableEq, Repr

namespace Span

/-- The empty stretch before byte `n`. -/
def point (n : Nat) : Span := ⟨n, n, Nat.le_refl n⟩

/-- The `length` bytes from `start` on. -/
def ofLength (start length : Nat) : Span := ⟨start, start + length, Nat.le_add_right _ _⟩

/-- The least stretch that holds both. -/
def join (a b : Span) : Span where
  start := min a.start b.start
  stop := max a.stop b.stop
  start_le_stop := Nat.le_trans (Nat.min_le_left _ _)
    (Nat.le_trans a.start_le_stop (Nat.le_max_left _ _))

end Span

end LetModules
