/-!
# Ranges of tokens

A `Span` is a half-open range of positions in a sequence of tokens. Every node of a syntax tree has
one, and blanks and comments count, so that a span marks off a stretch of text.
-/

namespace PipeQuery

/-- A half-open range of token positions. -/
@[ext] structure Span where
  /-- The position of the first token. -/
  start : Nat
  /-- The position just past the last token. -/
  stop : Nat
deriving DecidableEq, Repr, Inhabited

namespace Span

/-- The least range that starts no later and stops no earlier than either span. -/
def cover (s t : Span) : Span := ⟨min s.start t.start, max s.stop t.stop⟩

/-- The position of the last token; a span without tokens answers its start. -/
def last (s : Span) : Nat := max (s.stop - 1) s.start

/-- Whether the span has no token. -/
def isEmpty (s : Span) : Bool := s.stop ≤ s.start

/-- The number of tokens. -/
def length (s : Span) : Nat := s.stop - s.start

theorem length_eq_zero_iff (s : Span) : s.length = 0 ↔ s.isEmpty = true := by
  simp [length, isEmpty]
  omega

theorem cover_comm (s t : Span) : s.cover t = t.cover s := by
  simp [cover, Nat.min_comm, Nat.max_comm]

theorem cover_assoc (s t u : Span) : (s.cover t).cover u = s.cover (t.cover u) := by
  simp [cover, Nat.min_assoc, Nat.max_assoc]

end Span

end PipeQuery
