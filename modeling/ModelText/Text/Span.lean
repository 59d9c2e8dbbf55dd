/-!
# Stretches of a text

A `Span` is a stretch of a text, measured in bytes of its encoded form from
the start of the text, with its end excluded. Its end never lies before its
start: `Span.between` clamps, and the union of two spans keeps the rule. A
`Spanned` value remembers the stretch it was read from.
-/

namespace ModelText

/-- A stretch of a text, in bytes; the byte at `stop` is not part of it. -/
structure Span where
  /-- The offset of the first byte. -/
  start : Nat
  /-- The offset behind the last byte. -/
  stop : Nat
  /-- A span does not end before it starts. -/
  start_le_stop : start ≤ stop := by omega
  deriving DecidableEq

namespace Span

instance : Inhabited Span := ⟨⟨0, 0, Nat.le_refl 0⟩⟩

/-- The span from `start` to `stop`, empty if `stop` lies before `start`. -/
def between (start stop : Nat) : Span := ⟨start, max start stop, by omega⟩

/-- The number of bytes. -/
def size (s : Span) : Nat := s.stop - s.start

/-- Whether the span has no bytes. -/
def isEmpty (s : Span) : Bool := s.start == s.stop

/-- The least span around two spans. -/
def union (s t : Span) : Span where
  start := min s.start t.start
  stop := max s.stop t.stop
  start_le_stop := by have := s.start_le_stop; omega

/-- The last byte of a span, where a bracket closes. -/
def lastByte (s : Span) : Span := ⟨s.stop - 1, s.stop, by omega⟩

@[simp] theorem start_between (start stop : Nat) :
    (between start stop).start = start := rfl

@[simp] theorem stop_between (start stop : Nat) :
    (between start stop).stop = max start stop := rfl

@[simp] theorem start_union (s t : Span) :
    (s.union t).start = min s.start t.start := rfl

@[simp] theorem stop_union (s t : Span) :
    (s.union t).stop = max s.stop t.stop := rfl

end Span

/-- A value and the stretch of text it was read from. -/
structure Spanned (α : Type) where
  /-- What was read. -/
  value : α
  /-- Where it was read. -/
  span : Span
  deriving DecidableEq

/-- Changes the value and keeps the place. -/
def Spanned.map {α β : Type} (f : α → β) (x : Spanned α) : Spanned β :=
  ⟨f x.value, x.span⟩

end ModelText
