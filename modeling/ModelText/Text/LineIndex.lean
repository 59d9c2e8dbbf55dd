import ModelText.Text.Position

/-!
# Tables of lines

A `LineIndex` is made once for a text and then asked for the positions of many
offsets. It keeps where the lines of the text start: at the first byte and
behind each line break. The line of an offset is found by binary search among
these starts, and the column by counting the characters from the start of the
line to the offset. An offset inside a character has no such characters, so its
column counts bytes; an offset behind the end counts as the end.
-/

namespace ModelText

/-! ### Binary search -/

/-- How many items of an array come before the first one that does not hold,
where all items before `base` hold and none behind the next `size` ones does. -/
def partitionFrom {α : Type} (holds : α → Bool) (items : Array α)
    (base size : Nat) (h : base + size ≤ items.size) : Nat :=
  if hs : 1 < size then
    if holds items[base + size / 2] then
      partitionFrom holds items (base + size / 2) (size - size / 2) (by omega)
    else partitionFrom holds items base (size - size / 2) (by omega)
  else if ho : size = 1 then
    if holds items[base] then base + 1 else base
  else base

/-- How many items of an array come before the first one that does not hold,
where those that hold come first. -/
def partitionPoint {α : Type} (holds : α → Bool) (items : Array α) : Nat :=
  partitionFrom holds items 0 items.size (by omega)

theorem partitionFrom_le {α : Type} (holds : α → Bool) (items : Array α)
    (base size : Nat) (h : base + size ≤ items.size) :
    partitionFrom holds items base size h ≤ base + size := by
  fun_induction partitionFrom <;> omega

theorem partitionPoint_le {α : Type} (holds : α → Bool) (items : Array α) :
    partitionPoint holds items ≤ items.size := by
  simpa [partitionPoint] using partitionFrom_le holds items 0 items.size _

/-! ### Slices -/

/-- Cuts a text behind its first `bytes` bytes, unless that is inside of a
character or behind the end. -/
def cutBytes? (bytes : Nat) : List Char → Option (List Char × List Char)
  | [] => if bytes = 0 then some ([], []) else none
  | c :: rest =>
    if bytes = 0 then some ([], c :: rest)
    else if bytes < c.utf8Size then none
    else (cutBytes? (bytes - c.utf8Size) rest).map fun (front, back) =>
      (c :: front, back)

@[simp] theorem cutBytes?_zero (text : List Char) :
    cutBytes? 0 text = some ([], text) := by
  cases text <;> simp [cutBytes?]

theorem cutBytes?_cons_add (bytes : Nat) (c : Char) (rest : List Char) :
    cutBytes? (c.utf8Size + bytes) (c :: rest) =
      (cutBytes? bytes rest).map fun (front, back) => (c :: front, back) := by
  have := c.utf8Size_pos
  rw [cutBytes?, if_neg (by omega), if_neg (by omega), Nat.add_sub_cancel_left]

/-- The characters of a text from one offset up to another one, unless one of
them is not an offset between characters. -/
def slice? (text : List Char) (start stop : Nat) : Option (List Char) :=
  if start ≤ stop then
    (cutBytes? start text).bind fun cut =>
      (cutBytes? (stop - start) cut.2).map (·.1)
  else none

/-! ### Lines -/

/-- Where lines start behind the line breaks of a text that begins at an
offset. -/
def startsBehindBreaks (offset : Nat) : List Char → List Nat
  | [] => []
  | c :: rest =>
    let behind := offset + c.utf8Size
    if c = '\n' then behind :: startsBehindBreaks behind rest
    else startsBehindBreaks behind rest

/-- Where the lines of a text start. -/
def lineStarts (text : List Char) : List Nat := 0 :: startsBehindBreaks 0 text

/-- A text with the table of its lines. -/
structure LineIndex where
  /-- The text. -/
  text : String
  /-- Where its lines start. -/
  starts : Array Nat
  /-- The table is the one of the text. -/
  toList_starts : starts.toList = lineStarts text.toList

namespace LineIndex

/-- The table of a text. -/
def ofText (text : String) : LineIndex :=
  ⟨text, (lineStarts text.toList).toArray, List.toList_toArray⟩

variable (index : LineIndex)

/-- There is a first line. -/
theorem size_starts_pos : 0 < index.starts.size := by
  rw [← Array.length_toList, index.toList_starts]
  exact Nat.succ_pos _

/-- The line of an offset, counted from 0. -/
def line (offset : Nat) : Nat :=
  partitionPoint (· ≤ offset) index.starts - 1

theorem line_lt (offset : Nat) : index.line offset < index.starts.size := by
  have hle := partitionPoint_le (· ≤ offset) index.starts
  have hpos := index.size_starts_pos
  unfold line
  omega

/-- Where the line of an offset starts. -/
def lineStart (offset : Nat) : Nat :=
  have := index.line_lt offset
  index.starts[index.line offset]

/-- The characters of its line before an offset, or the bytes if it is inside of
a character. -/
def columnsBefore (offset : Nat) : Nat :=
  (slice? index.text.toList (index.lineStart offset) offset).elim
    (offset - index.lineStart offset) List.length

/-- The position of an offset. -/
def position (offset : Nat) : Position :=
  let offset := min offset index.text.utf8ByteSize
  ⟨index.line offset + 1, index.columnsBefore offset + 1⟩

end LineIndex

end ModelText
