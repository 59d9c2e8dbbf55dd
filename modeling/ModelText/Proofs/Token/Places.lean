import ModelText.Text.Position
import ModelText.Token.Lexer
import Mathlib.Data.List.Basic

/-!
# Where tokens and faults stand

The pieces of a text stand one behind another, so each token takes whole
characters of the text, and so does each fault that was found at characters.
Only a character that begins nothing is told at the first of its bytes, however
many it has.

An offset in front of a character has the position that a reader counts:
`Position.behind` counts the line breaks before it and the characters since the
last of them.
-/

namespace ModelText

open Token (byteLength byteLength_append)

/-! ### Positions -/

namespace Position

/-- The characters of a text behind its last line break. -/
def lastLine (text : List Char) : List Char :=
  (text.reverse.takeWhile (· != '\n')).reverse

/-- The position behind a text: its line breaks and the characters of its last
line are counted. -/
def behind (text : List Char) : Position :=
  ⟨1 + text.count '\n', 1 + (lastLine text).length⟩

theorem lastLine_append_singleton (text : List Char) (c : Char) :
    lastLine (text ++ [c]) = if c = '\n' then [] else lastLine text ++ [c] := by
  unfold lastLine
  rw [List.reverse_append, List.reverse_singleton, List.singleton_append,
    List.takeWhile_cons]
  by_cases h : c = '\n' <;> simp [h]

theorem behind_append_singleton (text : List Char) (c : Char) :
    behind (text ++ [c]) = (behind text).next c := by
  unfold behind next
  rw [lastLine_append_singleton, List.count_append, List.count_singleton]
  by_cases h : c = '\n'
  · simp [h, Nat.add_assoc]
  · simp [h, Nat.add_assoc]

/-- The walk over a text stands behind the part that it has passed. -/
theorem advance_behind (passed before rest : List Char) (offset : Nat) :
    (behind passed).advance (byteLength (lastLine passed)) (before ++ rest)
        (byteLength before + offset) =
      (behind (passed ++ before)).advance
        (byteLength (lastLine (passed ++ before))) rest offset := by
  induction before generalizing passed with
  | nil => simp
  | cons c before ih =>
    have hline : (if c = '\n' then 0
        else byteLength (lastLine passed) + c.utf8Size) =
        byteLength (lastLine (passed ++ [c])) := by
      rw [lastLine_append_singleton]
      by_cases h : c = '\n'
      · rw [if_pos h, if_pos h, Token.byteLength_nil]
      · rw [if_neg h, if_neg h, byteLength_append]
        rfl
    rw [Token.byteLength_cons, Nat.add_assoc, List.cons_append,
      advance_cons_add, hline, ← behind_append_singleton, ih,
      List.append_assoc, List.singleton_append]

variable {text : String} {before after : List Char}

/-- In front of a character, lines and characters are counted. -/
theorem ofOffset_prefix (h : text.toList = before ++ after) :
    ofOffset text (byteLength before) = behind before := by
  have ha := advance_behind [] before after 0
  rw [Nat.add_zero, advance_zero, ← h] at ha
  exact ha

/-- Behind the end, the position is that of the end. -/
theorem ofOffset_end {offset : Nat} (h : byteLength text.toList ≤ offset) :
    ofOffset text offset = behind text.toList := by
  obtain ⟨more, rfl⟩ := Nat.exists_eq_add_of_le h
  have ha := advance_behind [] text.toList [] more
  rw [List.append_nil, List.nil_append, advance_nil] at ha
  exact ha

/-- Inside a character, the bytes of the line are counted. -/
theorem ofOffset_inside {c : Char} (h : text.toList = before ++ c :: after)
    {inside : Nat} (hp : 0 < inside) (hi : inside < c.utf8Size) :
    ofOffset text (byteLength before + inside) =
      ⟨1 + before.count '\n', byteLength (lastLine before) + inside + 1⟩ := by
  have ha := advance_behind [] before (c :: after) inside
  rw [← h, List.nil_append, advance, if_neg (by omega), if_pos hi] at ha
  exact ha

end Position

/-! ### Pieces -/

/-- The span takes whole characters of a text. -/
def Span.Whole (span : Span) (text : List Char) : Prop :=
  ∃ before part after, text = before ++ (part ++ after) ∧
    span.start = byteLength before ∧ span.stop = byteLength (before ++ part)

namespace Token

/-- What is refused behind a backslash is refused in front of the end. -/
theorem length_lt_of_badEscape {cs : List Char} {length : Nat}
    (h : (stringBody cs).ending = .badEscape length) :
    (stringBody cs).length < cs.length := by
  fun_induction stringBody cs with
  | case1 | case2 | case3 => cases h
  | case4 rest taken value _ _ _ ih =>
    have hlt := ih h
    simp only [StringBody.cons, List.length_drop, List.length_cons] at hlt ⊢
    omega
  | case5 => exact Nat.succ_pos _
  | case6 c rest _ _ _ ih =>
    have hlt := ih h
    simp only [StringBody.cons, List.length_cons] at hlt ⊢
    omega

/-- A fault is found at characters of its piece, or the piece is a character
that begins nothing. -/
theorem read_fault {c : Char} {rest : List Char} {fault : LexicalFault}
    {start stop more : Nat}
    (h : read c rest = ⟨.fault fault start stop, more⟩) :
    (fault = .unexpectedCharacter ∧ start = 0 ∧ stop = 0) ∨
      start < stop ∧ start ≤ (rest.take more).length := by
  unfold read at h
  dsimp only at h
  split at h
  · cases h
  split at h
  · cases h
  split at h
  · -- a string
    unfold readString at h
    dsimp only at h
    cases he : (stringBody rest).ending with
    | closed =>
      rw [he] at h
      cases h
    | unclosed =>
      rw [he] at h
      cases h
      exact .inr ⟨Nat.succ_pos _, Nat.zero_le _⟩
    | badEscape length =>
      rw [he] at h
      cases h
      have hlt := length_lt_of_badEscape he
      rw [List.length_take]
      exact .inr ⟨by omega, by omega⟩
  split at h
  · next hn =>
    unfold readNumber at h
    split at h
    · cases h
    · cases h
      have hpos : numberLength (c :: rest) ≠ 0 := by
        simpa using (Bool.and_eq_true_iff.1 hn).1
      exact .inr ⟨Nat.pos_of_ne_zero hpos, Nat.zero_le _⟩
  split at h
  · cases h
  · unfold readMark at h
    split at h
    · cases h
    · split at h
      · cases h
      · cases h
        exact .inl ⟨rfl, rfl, rfl⟩

/-- A piece is read from the start of what is left. -/
theorem mem_cuts {cs : List Char} {cut : Cut} (h : cut ∈ cuts cs) :
    ∃ c rest more, read c rest = ⟨cut.piece, more⟩ ∧
      cut.chars = c :: rest.take more := by
  fun_induction cuts cs with
  | case1 => cases h
  | case2 c rest piece more hr ih =>
    rcases List.mem_cons.1 h with rfl | h
    · exact ⟨c, rest, more, hr, rfl⟩
    · exact ih h

/-- The pieces take every character once. -/
theorem flatMap_cuts (cs : List Char) : (cuts cs).flatMap Cut.chars = cs := by
  fun_induction cuts cs with
  | case1 => rfl
  | case2 c rest piece more hr ih =>
    rw [List.flatMap_cons, ih, List.cons_append, List.take_append_drop]

theorem mem_place {offset : Nat} {pieces : List Cut} {lexeme : Lexeme}
    (h : lexeme ∈ place offset pieces) :
    ∃ before cut after, pieces = before ++ cut :: after ∧
      lexeme = cut.lexeme (offset + byteLength (before.flatMap Cut.chars)) := by
  induction pieces generalizing offset with
  | nil => cases h
  | cons cut rest ih =>
    rcases List.mem_cons.1 h with rfl | h
    · exact ⟨[], cut, rest, rfl, rfl⟩
    · obtain ⟨before, found, after, rfl, rfl⟩ := ih h
      refine ⟨cut :: before, found, after, rfl, ?_⟩
      rw [List.flatMap_cons, byteLength_append, Nat.add_assoc]

/-- Each piece stands behind the characters of those before it. -/
theorem mem_lexemes {source : String} {lexeme : Lexeme}
    (h : lexeme ∈ lexemes source) :
    ∃ before c rest more after piece, read c rest = ⟨piece, more⟩ ∧
      source.toList = before ++ ((c :: rest.take more) ++ after) ∧
      lexeme = (Cut.mk piece (c :: rest.take more)).lexeme
        (byteLength before) := by
  obtain ⟨before, cut, after, hc, rfl⟩ := mem_place h
  obtain ⟨c, rest, more, hr, hx⟩ :=
    mem_cuts (hc ▸ List.mem_append_right before List.mem_cons_self)
  obtain ⟨piece, chars⟩ := cut
  cases hx
  refine ⟨before.flatMap Cut.chars, c, rest, more, after.flatMap Cut.chars,
    piece, hr, ?_, ?_⟩
  · rw [← flatMap_cuts source.toList, hc, List.flatMap_append,
      List.flatMap_cons]
  · rw [Nat.zero_add]

/-! ### Places -/

theorem byteLength_toList (text : String) :
    text.utf8ByteSize = byteLength text.toList := by
  have hall : ∀ cs : List Char,
      (String.ofList cs).utf8ByteSize = byteLength cs := by
    intro cs
    induction cs with
    | nil => rfl
    | cons c cs ih =>
      rw [String.ofList_cons, String.utf8ByteSize_append, ih]
      simp
  rw [← hall, String.ofList_toList]

theorem byteLength_pos {cs : List Char} (h : cs ≠ []) : 0 < byteLength cs := by
  obtain ⟨c, rest, rfl⟩ := List.exists_cons_of_ne_nil h
  exact Nat.add_pos_left c.utf8Size_pos _

/-- A fault that was found at characters takes these. -/
theorem whole_faultSpan {text before chars after : List Char} {start stop : Nat}
    (ht : text = before ++ (chars ++ after)) (hlt : start < stop)
    (hc : start < chars.length) :
    (faultSpan (byteLength before) chars start stop).Whole text := by
  obtain ⟨count, rfl⟩ := Nat.exists_eq_add_of_le (Nat.le_of_lt hlt)
  have htake : chars.take (start + count) =
      chars.take start ++ (chars.drop start).take count := List.take_add
  have hpart : (chars.drop start).take count ≠ [] := by
    refine List.ne_nil_of_length_pos ?_
    rw [List.length_take, List.length_drop]
    omega
  have hpos := byteLength_pos hpart
  refine ⟨before ++ chars.take start, (chars.drop start).take count,
    chars.drop (start + count) ++ after, ?_, ?_, ?_⟩
  · rw [ht]
    conv_lhs => rw [← chars.take_append_drop (start + count), htake]
    simp only [List.append_assoc]
  · exact (byteLength_append _ _).symm
  · simp only [faultSpan, Span.stop_between, htake, byteLength_append]
    omega

/-- A token takes whole characters. -/
theorem whole_of_token {source : String} {t : Spanned Token}
    (h : t ∈ tokensOf (lexemes source)) : t.span.Whole source.toList := by
  obtain ⟨lexeme, hl, ht⟩ := List.mem_filterMap.1 h
  obtain ⟨before, c, rest, more, after, piece, -, hs, rfl⟩ := mem_lexemes hl
  cases piece with
  | blank | fault => cases ht
  | token token =>
    cases ht
    refine ⟨before, c :: rest.take more, after, hs, rfl, ?_⟩
    rw [byteLength_append]
    exact Nat.max_eq_right (Nat.le_add_right _ _)

/-- A fault takes whole characters, or it stands at the first byte of a
character of several bytes that begins nothing. -/
theorem place_of_error {source : String} {e : LexicalError}
    (h : e ∈ errorsOf (lexemes source)) :
    e.span.Whole source.toList ∨ ∃ before c after,
      source.toList = before ++ c :: after ∧ 1 < c.utf8Size ∧
        e.fault = .unexpectedCharacter ∧ e.span.start = byteLength before ∧
          e.span.stop = byteLength before + 1 := by
  obtain ⟨lexeme, hl, he⟩ := List.mem_filterMap.1 h
  obtain ⟨before, c, rest, more, after, piece, hr, hs, rfl⟩ := mem_lexemes hl
  cases piece with
  | blank | token => cases he
  | fault fault start stop =>
    cases he
    rcases read_fault hr with ⟨rfl, rfl, rfl⟩ | ⟨hlt, hle⟩
    · by_cases hc : 1 < c.utf8Size
      · refine .inr ⟨before, c, _, hs, hc, rfl, rfl, ?_⟩
        simp [faultSpan]
      · have hone : c.utf8Size = 1 := by
          have := c.utf8Size_pos
          omega
        refine .inl ⟨before, [c], rest.take more ++ after, hs, rfl, ?_⟩
        simp [faultSpan, byteLength_append, hone]
    · exact .inl (whole_faultSpan hs hlt (Nat.lt_succ_of_le hle))

end Token

end ModelText
