/-!
# Lines and columns

A `Position` is what a reader counts: lines and columns from 1, a column for
each character. `Position.ofOffset` finds the position of a byte offset by
walking over the text once. An offset behind the end counts as the end, and an
offset inside a character counts the bytes since the start of its line, which is
the only count such an offset has.
-/

namespace ModelText

/-- A line and a column of a text, both counted from 1. -/
structure Position where
  /-- The line. -/
  line : Nat
  /-- The column, in characters. -/
  column : Nat
  deriving DecidableEq, Inhabited

namespace Position

/-- The position of the first character. -/
def first : Position := ⟨1, 1⟩

/-- The position behind the character `c`. -/
def next (p : Position) (c : Char) : Position :=
  if c = '\n' then ⟨p.line + 1, 1⟩ else ⟨p.line, p.column + 1⟩

/-- The position reached `offset` bytes into the text, where the walk stands at
`p`, `lineBytes` bytes behind the start of its line. -/
def advance (p : Position) (lineBytes : Nat) : List Char → Nat → Position
  | [], _ => p
  | c :: rest, offset =>
    if offset = 0 then p
    else if offset < c.utf8Size then ⟨p.line, lineBytes + offset + 1⟩
    else advance (p.next c) (if c = '\n' then 0 else lineBytes + c.utf8Size)
      rest (offset - c.utf8Size)

/-- The position of a byte offset in a text. -/
def ofOffset (text : String) (offset : Nat) : Position :=
  first.advance 0 text.toList offset

@[simp] theorem advance_nil (p : Position) (lineBytes offset : Nat) :
    p.advance lineBytes [] offset = p := rfl

@[simp] theorem advance_zero (p : Position) (lineBytes : Nat)
    (text : List Char) : p.advance lineBytes text 0 = p := by
  cases text <;> simp [advance]

/-- Past a whole character the walk goes on with the rest of the text. -/
theorem advance_cons_add (p : Position) (lineBytes : Nat) (c : Char)
    (rest : List Char) (offset : Nat) :
    p.advance lineBytes (c :: rest) (c.utf8Size + offset) =
      (p.next c).advance (if c = '\n' then 0 else lineBytes + c.utf8Size)
        rest offset := by
  have := c.utf8Size_pos
  rw [advance, if_neg (by omega), if_neg (by omega), Nat.add_sub_cancel_left]

end Position

end ModelText
