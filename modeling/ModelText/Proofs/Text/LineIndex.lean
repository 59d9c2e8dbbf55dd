import ModelText.Proofs.Token.Places
import ModelText.Text.LineIndex
import Mathlib.Data.List.Induction

/-!
# Tables of lines tell what a reader counts

The starts of lines that are not behind an offset come first in the table, and
there is one for the first line and one for each line break before the offset.
So the binary search finds the line of the offset, and the entry that it ends at
is where this line starts. This is the same position as the one that a walk over
the text finds (`LineIndex.position_eq_ofOffset`), for each offset.

The positions of the offsets between characters go up with the offsets, line by
line and within the lines.
-/

namespace ModelText

open Token (byteLength byteLength_append byteLength_cons byteLength_toList)

/-! ### Binary search -/

section

variable {α : Type} {holds : α → Bool} {items : Array α}

/-- The search narrows down to the number of items that hold. -/
theorem partitionFrom_eq {base size count : Nat} {h : base + size ≤ items.size}
    (hp : ∀ i (hi : i < items.size), holds items[i] = true ↔ i < count)
    (hb : base ≤ count) (hc : count ≤ base + size) :
    partitionFrom holds items base size h = count := by
  fun_induction partitionFrom with
  | case1 base size h hs hm ih =>
    have hlt := (hp (base + size / 2) (by omega)).1 hm
    exact ih (by omega) (by omega)
  | case2 base size h hs hm ih =>
    have hle := mt (hp (base + size / 2) (by omega)).2 hm
    exact ih hb (by omega)
  | case3 base h hs hm =>
    have hlt := (hp base (by omega)).1 hm
    omega
  | case4 base h hs hm =>
    have hle := mt (hp base (by omega)).2 hm
    omega
  | case5 base size h hs ho => omega

/-- Where the items that hold come first, the search counts them. -/
theorem partitionPoint_eq {front back : List α}
    (hi : items.toList = front ++ back) (hf : ∀ a ∈ front, holds a = true)
    (hb : ∀ a ∈ back, holds a = false) :
    partitionPoint holds items = front.length := by
  have hsize : items.size = front.length + back.length := by
    rw [← Array.length_toList, hi, List.length_append]
  refine partitionFrom_eq (fun i hlt => ?_) (Nat.zero_le _) (by omega)
  have hlength : i < (front ++ back).length := by
    rw [← hi]
    exact hlt
  have hget : items[i] = (front ++ back)[i] := by
    simp [← hi]
  rw [hget]
  by_cases h : i < front.length
  · rw [List.getElem_append_left h]
    exact iff_of_true (hf _ (List.getElem_mem h)) h
  · rw [List.getElem_append_right (Nat.le_of_not_lt h)]
    refine iff_of_false ?_ h
    rw [hb _ (List.getElem_mem _)]
    exact Bool.false_ne_true

end

/-! ### Slices -/

variable {text : String} {before after : List Char} {offset : Nat}

/-- A text is cut behind some of its characters. -/
theorem cutBytes?_append_add (front rest : List Char) (bytes : Nat) :
    cutBytes? (byteLength front + bytes) (front ++ rest) =
      (cutBytes? bytes rest).map fun (more, back) => (front ++ more, back) := by
  induction front with
  | nil => simp
  | cons c front ih =>
    rw [byteLength_cons, Nat.add_assoc, List.cons_append, cutBytes?_cons_add,
      ih, Option.map_map]
    rfl

theorem cutBytes?_append (front rest : List Char) :
    cutBytes? (byteLength front) (front ++ rest) = some (front, rest) := by
  simpa using cutBytes?_append_add front rest 0

/-- There is no cut inside of a character. -/
theorem cutBytes?_inside (front rest : List Char) {c : Char} {inside : Nat}
    (hp : 0 < inside) (hi : inside < c.utf8Size) :
    cutBytes? (byteLength front + inside) (front ++ c :: rest) = none := by
  rw [cutBytes?_append_add, cutBytes?, if_neg (by omega), if_pos hi]
  rfl

theorem slice?_append (front part rest : List Char) :
    slice? (front ++ (part ++ rest)) (byteLength front)
      (byteLength front + byteLength part) = some part := by
  rw [slice?, if_pos (Nat.le_add_right _ _), cutBytes?_append, Option.bind_some,
    Nat.add_sub_cancel_left, cutBytes?_append]
  rfl

theorem slice?_inside (front part rest : List Char) {c : Char} {inside : Nat}
    (hp : 0 < inside) (hi : inside < c.utf8Size) :
    slice? (front ++ (part ++ c :: rest)) (byteLength front)
      (byteLength front + (byteLength part + inside)) = none := by
  rw [slice?, if_pos (Nat.le_add_right _ _), cutBytes?_append, Option.bind_some,
    Nat.add_sub_cancel_left, cutBytes?_inside part rest hp hi]
  rfl

/-! ### Starts of lines -/

theorem startsBehindBreaks_append (offset : Nat) (front rest : List Char) :
    startsBehindBreaks offset (front ++ rest) =
      startsBehindBreaks offset front ++
        startsBehindBreaks (offset + byteLength front) rest := by
  induction front generalizing offset with
  | nil => simp [startsBehindBreaks]
  | cons c front ih =>
    by_cases h : c = '\n' <;>
      simp [startsBehindBreaks, h, ih, Nat.add_assoc]

theorem length_startsBehindBreaks (offset : Nat) (text : List Char) :
    (startsBehindBreaks offset text).length = text.count '\n' := by
  induction text generalizing offset with
  | nil => rfl
  | cons c rest ih =>
    by_cases h : c = '\n' <;> simp [startsBehindBreaks, h, ih]

/-- A line starts behind a line break. -/
theorem exists_of_mem_startsBehindBreaks {start : Nat} {text : List Char}
    (h : start ∈ startsBehindBreaks offset text) :
    ∃ front rest, text = front ++ '\n' :: rest ∧
      start = offset + byteLength front + 1 := by
  induction text generalizing offset with
  | nil => cases h
  | cons c text ih =>
    have hmem : (c = '\n' ∧ start = offset + c.utf8Size) ∨
        start ∈ startsBehindBreaks (offset + c.utf8Size) text := by
      rw [startsBehindBreaks] at h
      by_cases hc : c = '\n' <;> simp_all
    rcases hmem with ⟨rfl, rfl⟩ | hmem
    · exact ⟨[], text, rfl, rfl⟩
    · obtain ⟨front, rest, rfl, rfl⟩ := ih hmem
      exact ⟨c :: front, rest, rfl, by rw [byteLength_cons, Nat.add_assoc offset]⟩

/-- The start of the line is the last one that the text has. -/
theorem getLast?_lineStarts (text : List Char) :
    ∃ front, text = front ++ Position.lastLine text ∧
      (lineStarts text).getLast? = some (byteLength front) := by
  induction text using List.reverseRecOn with
  | nil => exact ⟨[], rfl, rfl⟩
  | append_singleton text c ih =>
    obtain ⟨front, htext, hlast⟩ := ih
    rw [Position.lastLine_append_singleton, lineStarts,
      startsBehindBreaks_append, ← List.cons_append, ← lineStarts, Nat.zero_add]
    by_cases hc : c = '\n'
    · refine ⟨text ++ [c], by simp [hc], ?_⟩
      simp [hc, startsBehindBreaks, byteLength_append]
    · have hline : text ++ [c] = front ++ (Position.lastLine text ++ [c]) := by
        rw [← List.append_assoc, ← htext]
      refine ⟨front, by simpa [hc] using hline, ?_⟩
      simpa [hc, startsBehindBreaks] using hlast

namespace LineIndex

variable {index : LineIndex} {before after : List Char} {inside : Nat}

/-- The starts that are not behind an offset come first in the table. -/
theorem partitionPoint_starts (h : index.text.toList = before ++ after)
    (hi : ∀ c ∈ after.head?, inside < c.utf8Size) :
    index.starts.toList = lineStarts before ++
        startsBehindBreaks (byteLength before) after ∧
      partitionPoint (· ≤ byteLength before + inside) index.starts =
        (lineStarts before).length := by
  have hstarts : index.starts.toList = lineStarts before ++
      startsBehindBreaks (byteLength before) after := by
    rw [index.toList_starts, h, lineStarts, startsBehindBreaks_append,
      Nat.zero_add]
    rfl
  refine ⟨hstarts, partitionPoint_eq hstarts (fun start hs => ?_)
    fun start hs => ?_⟩
  · refine decide_eq_true (Nat.le_add_right_of_le ?_)
    rcases List.mem_cons.1 hs with rfl | hs
    · exact Nat.zero_le _
    · obtain ⟨front, rest, rfl, rfl⟩ := exists_of_mem_startsBehindBreaks hs
      have hsize : '\n'.utf8Size = 1 := rfl
      rw [byteLength_append, byteLength_cons, hsize]
      omega
  · obtain ⟨front, rest, rfl, rfl⟩ := exists_of_mem_startsBehindBreaks hs
    refine decide_eq_false (Nat.not_le_of_lt ?_)
    cases front with
    | nil =>
      have hlt : inside < 1 := hi '\n' rfl
      omega
    | cons c front =>
      have hlt := hi c rfl
      rw [byteLength_cons]
      omega

/-- The line of an offset is told by the line breaks before it. -/
theorem line_eq (h : index.text.toList = before ++ after)
    (hi : ∀ c ∈ after.head?, inside < c.utf8Size) :
    index.line (byteLength before + inside) = before.count '\n' := by
  rw [line, (partitionPoint_starts h hi).2, lineStarts, List.length_cons,
    length_startsBehindBreaks, Nat.add_sub_cancel]

/-- The line of an offset starts where its characters before the offset do. -/
theorem lineStart_eq (h : index.text.toList = before ++ after)
    (hi : ∀ c ∈ after.head?, inside < c.utf8Size) :
    ∃ front, before = front ++ Position.lastLine before ∧
      index.lineStart (byteLength before + inside) = byteLength front := by
  obtain ⟨front, hbefore, hlast⟩ := getLast?_lineStarts before
  obtain ⟨hstarts, hpoint⟩ := partitionPoint_starts h hi
  refine ⟨front, hbefore, ?_⟩
  have hget : index.starts[index.line (byteLength before + inside)]? =
      some (byteLength front) := by
    rw [← Array.getElem?_toList, hstarts, line, hpoint, ← hlast,
      List.getLast?_eq_getElem?]
    exact List.getElem?_append_left (Nat.sub_lt (Nat.succ_pos _) Nat.one_pos)
  exact (Array.getElem?_eq_some_iff.1 hget).2

/-- An offset up to the end of the text is where it is. -/
theorem position_of_le {offset : Nat} (h : offset ≤ index.text.utf8ByteSize) :
    index.position offset =
      ⟨index.line offset + 1, index.columnsBefore offset + 1⟩ := by
  rw [position, Nat.min_eq_left h]

theorem le_of_append (h : index.text.toList = before ++ after) :
    byteLength before ≤ index.text.utf8ByteSize := by
  rw [byteLength_toList, h, byteLength_append]
  exact Nat.le_add_right _ _

/-- In front of a character, lines and characters are counted. -/
theorem position_behind (h : index.text.toList = before ++ after) :
    index.position (byteLength before) = .behind before := by
  have hi : ∀ c ∈ after.head?, 0 < c.utf8Size := fun c _ => c.utf8Size_pos
  obtain ⟨front, hbefore, hstart⟩ := lineStart_eq h hi
  have hline := line_eq h hi
  rw [Nat.add_zero] at hstart hline
  have hcolumns : index.columnsBefore (byteLength before) =
      (Position.lastLine before).length := by
    have hslice := slice?_append front (Position.lastLine before) after
    rw [← byteLength_append, ← List.append_assoc, ← hbefore, ← h] at hslice
    rw [columnsBefore, hstart, hslice]
    rfl
  rw [position_of_le (le_of_append h), hline, hcolumns, Position.behind,
    Nat.add_comm 1, Nat.add_comm 1]

/-- Inside of a character, the bytes of the line are counted. -/
theorem position_of_inside {c : Char}
    (h : index.text.toList = before ++ c :: after) (hp : 0 < inside)
    (hi : inside < c.utf8Size) :
    index.position (byteLength before + inside) =
      ⟨1 + before.count '\n',
        byteLength (Position.lastLine before) + inside + 1⟩ := by
  have hhead : ∀ d ∈ (c :: after).head?, inside < d.utf8Size := by
    rintro d ⟨⟩
    exact hi
  obtain ⟨front, hbefore, hstart⟩ := lineStart_eq h hhead
  have hbytes : byteLength before =
      byteLength front + byteLength (Position.lastLine before) := by
    rw [← byteLength_append, ← hbefore]
  have hcolumns : index.columnsBefore (byteLength before + inside) =
      byteLength (Position.lastLine before) + inside := by
    have hslice :=
      slice?_inside front (Position.lastLine before) after hp hi
    rw [← List.append_assoc, ← hbefore, ← h, ← Nat.add_assoc, ← hbytes] at hslice
    rw [columnsBefore, hstart, hslice, Option.elim_none, hbytes]
    omega
  have hle : byteLength before + inside ≤ index.text.utf8ByteSize := by
    rw [byteLength_toList, h, byteLength_append, byteLength_cons]
    omega
  rw [position_of_le hle, line_eq h hhead, hcolumns, Nat.add_comm]

/-- Behind the end, the position is that of the end. -/
theorem position_of_end {offset : Nat}
    (h : byteLength index.text.toList ≤ offset) :
    index.position offset = .behind index.text.toList := by
  have hend : index.position (byteLength index.text.toList) =
      .behind index.text.toList :=
    position_behind (List.append_nil index.text.toList).symm
  rw [← hend]
  unfold position
  rw [byteLength_toList, Nat.min_eq_right h, Nat.min_self]

end LineIndex

/-- An offset is in front of a character, inside of one, or not in the text. -/
theorem offset_cases (text : List Char) (offset : Nat) :
    (∃ before after, text = before ++ after ∧ offset = byteLength before) ∨
      (∃ before c after inside, text = before ++ c :: after ∧ 0 < inside ∧
        inside < c.utf8Size ∧ offset = byteLength before + inside) ∨
      byteLength text ≤ offset := by
  induction text generalizing offset with
  | nil => exact .inr (.inr (Nat.zero_le _))
  | cons c text ih =>
    rcases Nat.eq_zero_or_pos offset with rfl | hpos
    · exact .inl ⟨[], c :: text, rfl, rfl⟩
    rcases Nat.lt_or_ge offset c.utf8Size with hlt | hge
    · exact .inr (.inl ⟨[], c, text, offset, rfl, hpos, hlt,
        (Nat.zero_add _).symm⟩)
    obtain ⟨rest, rfl⟩ := Nat.exists_eq_add_of_le hge
    rcases ih rest with ⟨before, after, rfl, rfl⟩ |
      ⟨before, d, after, inside, rfl, hp, hi, rfl⟩ | hle
    · exact .inl ⟨c :: before, after, rfl, rfl⟩
    · exact .inr (.inl ⟨c :: before, d, after, inside, rfl, hp, hi,
        (Nat.add_assoc _ _ _).symm⟩)
    · exact .inr (.inr (Nat.add_le_add_left hle _))

/-- **The table finds what a walk over the text finds.** -/
theorem LineIndex.position_eq_ofOffset (index : LineIndex) (offset : Nat) :
    index.position offset = .ofOffset index.text offset := by
  rcases offset_cases index.text.toList offset with
    ⟨before, after, h, rfl⟩ | ⟨before, c, after, inside, h, hp, hi, rfl⟩ | h
  · rw [position_behind h, Position.ofOffset_prefix h]
  · rw [position_of_inside h hp hi, Position.ofOffset_inside h hp hi]
  · rw [position_of_end h, Position.ofOffset_end h]

/-! ### Order -/

/-- The one position comes before the other one in a text. -/
def Position.Before (p q : Position) : Prop :=
  p.line < q.line ∨ p.line = q.line ∧ p.column < q.column

namespace Position

theorem Before.trans {p q r : Position} (h : p.Before q) (h' : q.Before r) :
    p.Before r := by
  unfold Before at *
  omega

theorem Before.ne {p q : Position} (h : p.Before q) : p ≠ q := by
  rintro rfl
  unfold Before at h
  omega

theorem before_next (p : Position) (c : Char) : p.Before (p.next c) := by
  unfold Before next
  by_cases h : c = '\n' <;> simp [h]

/-- Behind more characters, the position comes later. -/
theorem behind_before {more : List Char} (before : List Char)
    (h : more ≠ []) : (behind before).Before (behind (before ++ more)) := by
  induction more using List.reverseRecOn with
  | nil => exact absurd rfl h
  | append_singleton more c ih =>
    have hnext := before_next (behind (before ++ more)) c
    rw [← behind_append_singleton, List.append_assoc] at hnext
    cases more with
    | nil => simpa using hnext
    | cons d more => exact (ih (List.cons_ne_nil d more)).trans hnext

end Position

/-- The offset is in front of a character of the text or at its end. -/
def IsBoundary (text : List Char) (offset : Nat) : Prop :=
  ∃ before after, text = before ++ after ∧ offset = byteLength before

/-- What a reader is told of the offsets of a text: the lines and characters that
come before, so that positions and offsets between characters are in the same
order. -/
structure Position.Tells (text : List Char) (position : Nat → Position) :
    Prop where
  /-- The line breaks before an offset are counted, and the characters behind the
  last of them. -/
  counts : ∀ before after, text = before ++ after →
    position (byteLength before) =
      ⟨1 + before.count '\n', 1 + (lastLine before).length⟩
  increasing : ∀ offset offset', IsBoundary text offset →
    IsBoundary text offset' → offset < offset' →
      (position offset).Before (position offset')
  injective : ∀ offset offset', IsBoundary text offset →
    IsBoundary text offset' → position offset = position offset' →
      offset = offset'
  /-- Behind the end, there is the end. -/
  clamped : ∀ offset, byteLength text ≤ offset →
    position offset = position (byteLength text)

/-- Positions go up with the offsets between characters. -/
theorem LineIndex.position_before (index : LineIndex) {offset offset' : Nat}
    (h : IsBoundary index.text.toList offset)
    (h' : IsBoundary index.text.toList offset') (hlt : offset < offset') :
    (index.position offset).Before (index.position offset') := by
  obtain ⟨before, after, hsplit, rfl⟩ := h
  obtain ⟨before', after', hsplit', rfl⟩ := h'
  rw [position_behind hsplit, position_behind hsplit']
  rcases List.append_eq_append_iff.1 (hsplit.symm.trans hsplit') with
    ⟨more, rfl, -⟩ | ⟨more, rfl, -⟩
  · refine Position.behind_before before ?_
    rintro rfl
    simp at hlt
  · rw [byteLength_append] at hlt
    omega

/-- **The table of a text tells lines and columns**, and the walk over the text
tells the same. -/
theorem LineIndex.ofText_tells (text : String) :
    Position.Tells text.toList (ofText text).position ∧
      (ofText text).position = Position.ofOffset text := by
  have hbefore := @position_before (ofText text)
  refine ⟨⟨fun before after h => position_behind h,
    fun _ _ h h' => hbefore h h', fun offset offset' h h' he => ?_,
    fun offset h => ?_⟩, funext (ofText text).position_eq_ofOffset⟩
  · rcases Nat.lt_trichotomy offset offset' with hlt | heq | hgt
    · exact absurd he (hbefore h h' hlt).ne
    · exact heq
    · exact absurd he.symm (hbefore h' h hgt).ne
  · exact (position_of_end h).trans (position_of_end (Nat.le_refl _)).symm

example : [0, 1, 2, 4, 5, 6, 9, 100].map
    (LineIndex.ofText "a\nbc\n\ndé x").position =
      [⟨1, 1⟩, ⟨1, 2⟩, ⟨2, 1⟩, ⟨2, 3⟩, ⟨3, 1⟩, ⟨4, 1⟩, ⟨4, 3⟩, ⟨4, 5⟩] := by
  decide +kernel

end ModelText
