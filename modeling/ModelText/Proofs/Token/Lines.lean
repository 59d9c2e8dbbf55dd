import ModelText.Proofs.Token.Places

/-!
# Lines are read on their own

No token, no comment and no fault goes over the end of its line. What is read in
front of a line break is read the same at the end of a text, and the one
character that is passed over behind a fault is at most the line break. So the
tokens and the faults of two texts with a line break between them are those of
the first text, and behind them those of the second one, further on by as many
bytes as stand before it.

Only blanks go over the end of a line. They are no findings, so a text is looked
at through `Token.findings`, for which blanks can be taken one by one.
-/

namespace ModelText

/-! ### Further on in a text -/

/-- The same stretch further on. -/
def Span.shift (n : Nat) (span : Span) : Span where
  start := span.start + n
  stop := span.stop + n
  start_le_stop := Nat.add_le_add_right span.start_le_stop n

theorem Span.shift_between (n start stop : Nat) :
    (between start stop).shift n = between (start + n) (stop + n) := by
  unfold between shift
  congr 1
  exact (Nat.add_max_add_right start stop n).symm

/-- The same value further on. -/
def Spanned.shift {α : Type} (n : Nat) (x : Spanned α) : Spanned α :=
  ⟨x.value, x.span.shift n⟩

/-- The same diagnostic, pointing further on. -/
def Diagnostic.shift (n : Nat) (d : Diagnostic) : Diagnostic :=
  { d with labels := d.labels.map fun label =>
      { label with span := label.span.shift n } }

namespace Token

/-- The same error further on. -/
def LexicalError.shift (n : Nat) (e : LexicalError) : LexicalError :=
  ⟨e.fault, e.span.shift n⟩

namespace Lexeme

/-- The same further on. -/
def shift (n : Nat) : Lexeme → Lexeme
  | .blank => .blank
  | .token t => .token (t.shift n)
  | .error e => .error (e.shift n)

/-- Whether something was found: a token or an error. -/
def isFinding : Lexeme → Bool
  | .blank => false
  | .token _ | .error _ => true

@[simp] theorem isFinding_shift (n : Nat) (lexeme : Lexeme) :
    (lexeme.shift n).isFinding = lexeme.isFinding := by cases lexeme <;> rfl

end Lexeme

theorem shift_faultSpan (n offset : Nat) (chars : List Char) (start stop : Nat) :
    (faultSpan offset chars start stop).shift n =
      faultSpan (offset + n) chars start stop := by
  unfold faultSpan
  rw [Span.shift_between]
  congr 1 <;> omega

theorem Cut.lexeme_add (cut : Cut) (offset n : Nat) :
    cut.lexeme (offset + n) = (cut.lexeme offset).shift n := by
  unfold Cut.lexeme
  cases cut.piece with
  | blank => rfl
  | token t =>
    simp only [Lexeme.shift, Spanned.shift, Span.shift_between,
      Nat.add_right_comm]
  | fault fault start stop =>
    simp only [Lexeme.shift, LexicalError.shift, shift_faultSpan]

/-! ### Findings -/

/-- The tokens and errors of a text, from a given offset on. -/
def findings (offset : Nat) (cs : List Char) : List Lexeme :=
  (place offset (cuts cs)).filter (·.isFinding)

theorem findings_nil (offset : Nat) : findings offset [] = [] := by
  rw [findings, cuts]
  rfl

theorem findings_cons {c : Char} {rest : List Char} {piece : Piece} {more : Nat}
    (h : read c rest = ⟨piece, more⟩) (offset : Nat) :
    findings offset (c :: rest) =
      [(Cut.mk piece (c :: rest.take more)).lexeme offset].filter
          (·.isFinding) ++
        findings (offset + byteLength (c :: rest.take more))
          (rest.drop more) := by
  rw [findings, cuts, h, place, ← List.singleton_append, List.filter_append]
  rfl

theorem place_add (n offset : Nat) (pieces : List Cut) :
    place (offset + n) pieces = (place offset pieces).map (·.shift n) := by
  induction pieces generalizing offset with
  | nil => rfl
  | cons cut rest ih =>
    rw [place, place, List.map_cons, ← ih, Cut.lexeme_add, Nat.add_right_comm]

/-- What is found does not depend on what stands before it. -/
theorem findings_add (n offset : Nat) (cs : List Char) :
    findings (offset + n) cs = (findings offset cs).map (·.shift n) := by
  rw [findings, place_add, List.filter_map]
  congr 1
  exact List.filter_congr fun lexeme _ => Lexeme.isFinding_shift n lexeme

theorem read_blank {c : Char} (hc : isBlank c = true) (rest : List Char) :
    read c rest = ⟨.blank, countWhile isBlank rest⟩ := by
  rw [read]
  exact if_pos hc

/-- Blanks can be taken one by one. -/
theorem findings_blank {c : Char} (hc : isBlank c = true) (rest : List Char)
    (offset : Nat) :
    findings offset (c :: rest) = findings (offset + c.utf8Size) rest := by
  rw [findings_cons (read_blank hc rest)]
  change findings (offset + byteLength _) _ = _
  cases rest with
  | nil => rfl
  | cons d rest =>
    cases hd : isBlank d with
    | true =>
      rw [findings_cons (read_blank hd rest)]
      change _ = findings (offset + _ + byteLength _) _
      simp only [countWhile, List.takeWhile_cons, hd, ↓reduceIte,
        List.length_cons, List.take_succ_cons, List.drop_succ_cons,
        byteLength_cons, Nat.add_assoc]
    | false =>
      simp [countWhile, hd]

/-! ### In front of the end of a word -/

/-- Whether a name or a number could go on with a character. -/
def isWordChar (c : Char) : Bool :=
  isNameChar c || c == '.' || c == '+' || c == '-'

/-- No name and no number goes on at the start of the text. -/
def EndsWord (tail : List Char) : Prop :=
  ∀ c ∈ tail.head?, isWordChar c = false

theorem endsWord_nil : EndsWord [] := nofun

theorem endsWord_cons {c : Char} {rest : List Char} :
    EndsWord (c :: rest) ↔ isWordChar c = false := by
  simp [EndsWord]

theorem countWhile_le (kind : Char → Bool) (cs : List Char) :
    countWhile kind cs ≤ cs.length := (List.takeWhile_sublist kind).length_le

section

variable {cs tail : List Char} {kind : Char → Bool}

/-- Characters of a kind end where they ended before. -/
theorem takeWhile_append_of_head? (h : ∀ c ∈ tail.head?, kind c = false) :
    (cs ++ tail).takeWhile kind = cs.takeWhile kind := by
  induction cs with
  | nil =>
    cases tail with
    | nil => rfl
    | cons c tail => simp [h c rfl]
  | cons c rest ih => rw [List.cons_append, List.takeWhile_cons,
      List.takeWhile_cons, ih]

theorem countWhile_append_of_head? (h : ∀ c ∈ tail.head?, kind c = false) :
    countWhile kind (cs ++ tail) = countWhile kind cs :=
  congrArg List.length (takeWhile_append_of_head? h)

theorem EndsWord.not_kind (h : EndsWord tail)
    (hk : ∀ c, kind c = true → isWordChar c = true) :
    ∀ c ∈ tail.head?, kind c = false := by
  intro c hc
  refine Bool.eq_false_iff.2 fun hw => ?_
  have hends := h c hc
  rw [hk c hw] at hends
  cases hends

theorem EndsWord.not_nameChar (h : EndsWord tail) :
    ∀ c ∈ tail.head?, isNameChar c = false :=
  h.not_kind fun c hc => by simp [isWordChar, hc]

theorem EndsWord.not_digit (h : EndsWord tail) :
    ∀ c ∈ tail.head?, c.isDigit = false :=
  h.not_kind fun c hc => by
    simp [isWordChar, isNameChar, Char.isAlphanum, hc]

theorem EndsWord.head_ne {c d : Char} {rest : List Char}
    (h : EndsWord (c :: rest)) (hd : isWordChar d = true) : c ≠ d := by
  rintro rfl
  rw [endsWord_cons.1 h] at hd
  cases hd

/-! Numbers -/

theorem fractionLength_le (cs : List Char) : fractionLength cs ≤ cs.length := by
  unfold fractionLength
  split
  · rename_i rest
    have := countWhile_le Char.isDigit rest
    dsimp only
    split <;> simp only [List.length_cons] <;> omega
  · exact Nat.zero_le _

theorem fractionLength_append (h : EndsWord tail) :
    fractionLength (cs ++ tail) = fractionLength cs := by
  cases cs with
  | nil =>
    cases tail with
    | nil => rfl
    | cons c rest =>
      have hc : c ≠ '.' := h.head_ne rfl
      simp [fractionLength, hc]
  | cons c rest =>
    by_cases hc : c = '.'
    · subst hc
      simp only [List.cons_append, fractionLength]
      rw [countWhile_append_of_head? h.not_digit]
    · simp [fractionLength, hc]

theorem signLength_le (cs : List Char) : signLength cs ≤ cs.length := by
  unfold signLength
  split
  · split <;> simp
  · exact Nat.zero_le _

theorem signLength_append (h : EndsWord tail) :
    signLength (cs ++ tail) = signLength cs := by
  cases cs with
  | nil =>
    cases tail with
    | nil => rfl
    | cons c rest =>
      have hplus : c ≠ '+' := h.head_ne rfl
      have hminus : c ≠ '-' := h.head_ne rfl
      simp [signLength, hplus, hminus]
  | cons c rest => rfl

theorem powerLength_le (cs : List Char) : powerLength cs ≤ cs.length := by
  unfold powerLength
  split
  · rename_i c rest
    have hs := signLength_le rest
    have hd := countWhile_le Char.isDigit (rest.drop (signLength rest))
    rw [List.length_drop] at hd
    dsimp only
    split
    · split <;> simp only [List.length_cons] <;> omega
    · exact Nat.zero_le _
  · exact Nat.zero_le _

theorem powerLength_append (h : EndsWord tail) :
    powerLength (cs ++ tail) = powerLength cs := by
  cases cs with
  | nil =>
    cases tail with
    | nil => rfl
    | cons c rest =>
      have hsmall : c ≠ 'e' := h.head_ne rfl
      have hcapital : c ≠ 'E' := h.head_ne rfl
      simp [powerLength, hsmall, hcapital]
  | cons c rest =>
    simp only [List.cons_append, powerLength]
    rw [signLength_append h,
      List.drop_append_of_le_length (signLength_le rest),
      countWhile_append_of_head? h.not_digit]

/-- The length of a minus sign in front of digits, or zero. -/
def minusLength : List Char → Nat
  | '-' :: _ => 1
  | _ => 0

theorem numberLength_eq (cs : List Char) :
    numberLength cs =
      let digits := countWhile Char.isDigit (cs.drop (minusLength cs))
      if digits = 0 then 0
      else
        let whole := minusLength cs + digits
        let fraction := fractionLength (cs.drop whole)
        whole + fraction + powerLength (cs.drop (whole + fraction)) := rfl

theorem minusLength_le (cs : List Char) : minusLength cs ≤ cs.length := by
  unfold minusLength
  split <;> simp

theorem minusLength_append (h : EndsWord tail) :
    minusLength (cs ++ tail) = minusLength cs := by
  cases cs with
  | nil =>
    cases tail with
    | nil => rfl
    | cons c rest =>
      have hc : c ≠ '-' := h.head_ne rfl
      simp [minusLength, hc]
  | cons c rest =>
    by_cases hc : c = '-'
    · subst hc
      rfl
    · simp [minusLength, hc]

/-- The sign and the digits of a number are there, and so is what follows. -/
theorem wholeLength_le (cs : List Char) :
    minusLength cs + countWhile Char.isDigit (cs.drop (minusLength cs)) ≤
      cs.length := by
  have hd := countWhile_le Char.isDigit (cs.drop (minusLength cs))
  have hm := minusLength_le cs
  rw [List.length_drop] at hd
  omega

theorem add_fractionLength_le {n : Nat} (h : n ≤ cs.length) :
    n + fractionLength (cs.drop n) ≤ cs.length := by
  have hf := fractionLength_le (cs.drop n)
  rw [List.length_drop] at hf
  omega

theorem numberLength_le (cs : List Char) : numberLength cs ≤ cs.length := by
  rw [numberLength_eq]
  have hw := wholeLength_le cs
  dsimp only
  split
  · exact Nat.zero_le _
  · have hf := add_fractionLength_le hw
    have hp := powerLength_le (cs.drop (minusLength cs +
      countWhile Char.isDigit (cs.drop (minusLength cs)) +
      fractionLength (cs.drop (minusLength cs +
        countWhile Char.isDigit (cs.drop (minusLength cs))))))
    rw [List.length_drop] at hp
    omega

/-- A number ends where it ended before. -/
theorem numberLength_append (h : EndsWord tail) :
    numberLength (cs ++ tail) = numberLength cs := by
  rw [numberLength_eq, numberLength_eq]
  have hw := wholeLength_le cs
  dsimp only
  rw [minusLength_append h, List.drop_append_of_le_length (minusLength_le cs),
    countWhile_append_of_head? h.not_digit, List.drop_append_of_le_length hw,
    fractionLength_append h,
    List.drop_append_of_le_length (add_fractionLength_le hw),
    powerLength_append h]

theorem continuesName_append (h : EndsWord tail) :
    continuesName (cs ++ tail) = continuesName cs := by
  cases cs with
  | nil =>
    cases tail with
    | nil => rfl
    | cons c rest => exact h.not_nameChar c rfl
  | cons c rest => rfl

end

/-! ### In front of a line break -/

section

variable {cs : List Char} (b : List Char)

theorem drop_break {n : Nat} (h : n ≤ cs.length) :
    (cs ++ '\n' :: b).drop n = cs.drop n ++ '\n' :: b :=
  List.drop_append_of_le_length h

theorem take_break {n : Nat} (h : n ≤ cs.length) :
    (cs ++ '\n' :: b).take n = cs.take n :=
  List.take_append_of_le_length h

theorem head?_break {c : Char} (hc : c ≠ '\n') :
    (cs ++ '\n' :: b).head? = some c ↔ cs.head? = some c := by
  cases cs with
  | nil => simp [Ne.symm hc]
  | cons d rest => rfl

theorem head?_break_not {kind : Char → Bool} (h : kind '\n' = false) :
    ∀ c ∈ ('\n' :: b).head?, kind c = false := by
  rintro c ⟨⟩
  exact h

theorem endsWord_break : EndsWord ('\n' :: b) := endsWord_cons.2 rfl

/-! Strings -/

theorem takeWhile_take_le (kind : Char → Bool) (n : Nat) (cs : List Char) :
    ((cs.take n).takeWhile kind).length ≤ cs.length :=
  Nat.le_trans (List.takeWhile_sublist kind).length_le
    (List.take_sublist n cs).length_le

theorem takeWhile_take_break {kind : Char → Bool} (h : kind '\n' = false)
    (n : Nat) :
    ((cs ++ '\n' :: b).take n).takeWhile kind = (cs.take n).takeWhile kind := by
  induction cs generalizing n with
  | nil => cases n <;> simp [h]
  | cons c rest ih =>
    cases n with
    | zero => rfl
    | succ n =>
      rw [List.cons_append, List.take_succ_cons, List.take_succ_cons,
        List.takeWhile_cons, List.takeWhile_cons, ih]

theorem numberEscape_le (cs : List Char) :
    (numberEscape cs).length ≤ cs.length + 1 := by
  unfold numberEscape
  split
  · rename_i rest
    have hd := takeWhile_take_le isHexDigit 6 rest
    dsimp only
    split
    · simp
    split
    · rename_i hclosed
      have hlt : ((rest.take 6).takeWhile isHexDigit).length < rest.length := by
        by_contra hge
        rw [List.drop_eq_nil_of_le (Nat.le_of_not_lt hge)] at hclosed
        cases hclosed
      split <;> simp only [List.length_cons] <;> omega
    · simp only [List.length_cons]
      omega
  · simp

theorem numberEscape_break : numberEscape (cs ++ '\n' :: b) = numberEscape cs := by
  cases cs with
  | nil => rfl
  | cons c rest =>
    by_cases hc : c = '{'
    · subst hc
      simp only [List.cons_append, numberEscape]
      rw [takeWhile_take_break b (by decide),
        drop_break b (takeWhile_take_le isHexDigit 6 rest)]
      simp only [head?_break b (show '}' ≠ '\n' by decide)]
    · simp [numberEscape, hc]

theorem escape_le (cs : List Char) : (escape cs).length ≤ cs.length := by
  unfold escape
  split
  · exact Nat.zero_le _
  · split
    · exact numberEscape_le _
    · split <;> simp

theorem escape_break : escape (cs ++ '\n' :: b) = escape cs := by
  cases cs with
  | nil => rfl
  | cons c rest =>
    simp only [List.cons_append, escape]
    rw [numberEscape_break]

theorem stringBody_break : stringBody (cs ++ '\n' :: b) = stringBody cs := by
  fun_induction stringBody cs with
  | case1 => rw [List.nil_append, stringBody]; rfl
  | case2 rest => rw [List.cons_append, stringBody]; rfl
  | case3 c rest hq hl => rw [List.cons_append, stringBody, if_neg hq, if_pos hl]
  | case4 rest length value he _ _ ih =>
    have hle := escape_le rest
    rw [he] at hle
    rw [List.cons_append, stringBody, if_neg (by decide), if_neg (by decide),
      if_pos rfl, escape_break, he]
    dsimp only
    rw [drop_break b hle, ih]
  | case5 rest length he _ _ =>
    rw [List.cons_append, stringBody, if_neg (by decide), if_neg (by decide),
      if_pos rfl, escape_break, he]
  | case6 c rest hq hl hs ih =>
    rw [List.cons_append, stringBody, if_neg hq, if_neg hl, if_neg hs, ih]

/-- The number of characters that are read behind the content of a string. -/
def StringEnd.length : StringEnd → Nat
  | .closed => 1
  | .unclosed => 0
  | .badEscape length => length + 1

theorem stringBody_le (cs : List Char) :
    (stringBody cs).length + (stringBody cs).ending.length ≤ cs.length := by
  fun_induction stringBody cs with
  | case1 => exact Nat.le_refl 0
  | case2 => exact Nat.le_add_left _ _
  | case3 => exact Nat.zero_le _
  | case4 rest length value he _ _ ih =>
    have hle := escape_le rest
    rw [he] at hle
    simp only [StringBody.cons, List.length_cons, List.length_drop] at ih hle ⊢
    omega
  | case5 rest length he _ _ =>
    have hle := escape_le rest
    rw [he] at hle
    simp only [StringEnd.length, List.length_cons] at hle ⊢
    omega
  | case6 c rest _ _ _ ih =>
    simp only [StringBody.cons, List.length_cons] at ih ⊢
    omega

/-! Pieces -/

/-- A piece ends in the text behind its first character, `n` characters long, or
it is a fault that goes to the end of the text, and reading goes on behind the
character after that. -/
def Reading.Within (n : Nat) (reading : Reading) : Prop :=
  reading.more ≤ n ∨
    ∃ fault start, start ≤ n + 1 ∧ reading = .fault fault start (n + 1)

theorem Reading.within_fault {fault : LexicalFault} {start stop n : Nat}
    (hs : start ≤ stop) (h : stop ≤ n + 1) :
    (Reading.fault fault start stop).Within n := by
  rcases Nat.lt_or_eq_of_le h with h | rfl
  · exact .inl (Nat.le_of_lt_succ h)
  · exact .inr ⟨fault, start, hs, rfl⟩

theorem readString_within (cs : List Char) :
    (readString cs).Within cs.length := by
  have hle := stringBody_le cs
  unfold readString
  dsimp only
  cases he : (stringBody cs).ending with
  | closed =>
    rw [he] at hle
    exact .inl hle
  | unclosed =>
    rw [he] at hle
    exact Reading.within_fault (Nat.zero_le _) (Nat.succ_le_succ hle)
  | badEscape length =>
    rw [he] at hle
    simp only [StringEnd.length] at hle
    exact Reading.within_fault (by omega) (by omega)

theorem readString_break : readString (cs ++ '\n' :: b) = readString cs := by
  unfold readString
  rw [stringBody_break]

theorem readMark_within (c : Char) (rest : List Char) :
    (readMark c rest).Within rest.length := by
  unfold readMark
  split
  · rename_i h
    obtain ⟨-, h⟩ := h
    cases rest with
    | nil => cases h
    | cons d rest => exact .inl (Nat.succ_le_succ (Nat.zero_le _))
  · split <;> exact .inl (Nat.zero_le _)

theorem readMark_break (c : Char) :
    readMark c (cs ++ '\n' :: b) = readMark c cs := by
  unfold readMark
  simp only [head?_break b (show '(' ≠ '\n' by decide)]

theorem readNumber_within {length n : Nat} (h : length ≤ n + 1) :
    (readNumber cs length).Within n := by
  unfold readNumber
  split
  · exact .inl (Nat.sub_le_of_le_add h)
  · exact Reading.within_fault (Nat.zero_le _) h

theorem read_within (c : Char) (rest : List Char) :
    (read c rest).Within rest.length := by
  unfold read
  dsimp only
  split
  · exact .inl (countWhile_le _ _)
  split
  · exact .inl (countWhile_le _ _)
  split
  · exact readString_within rest
  split
  · exact readNumber_within (numberLength_le (c :: rest))
  split
  · exact .inl (countWhile_le _ _)
  · exact readMark_within c rest

/-- What follows a line break does not matter for what is read before it, if it
is no blank. -/
theorem read_break {c : Char} (hc : isBlank c = false) :
    read c (cs ++ '\n' :: b) = read c cs := by
  have hn : numberLength (c :: (cs ++ '\n' :: b)) = numberLength (c :: cs) :=
    @numberLength_append (c :: cs) _ (endsWord_break b)
  have hle := numberLength_le (c :: cs)
  have hd : (c :: (cs ++ '\n' :: b)).drop (numberLength (c :: cs)) =
      (c :: cs).drop (numberLength (c :: cs)) ++ '\n' :: b :=
    @drop_break (c :: cs) b _ hle
  have ht : (c :: (cs ++ '\n' :: b)).take (numberLength (c :: cs)) =
      (c :: cs).take (numberLength (c :: cs)) := @take_break (c :: cs) b _ hle
  unfold read readNumber
  simp only [hc, Bool.false_eq_true, ↓reduceIte, hn, hd, ht,
    continuesName_append (endsWord_break b), readString_break, readMark_break,
    head?_break b (show '/' ≠ '\n' by decide)]
  rw [countWhile_append_of_head? (head?_break_not b (by decide)),
    countWhile_append_of_head? (head?_break_not b (by decide)),
    takeWhile_append_of_head? (head?_break_not b (by decide))]

/-- A fault does not depend on what stands behind its characters. -/
theorem faultSpan_append {chars : List Char} {start stop : Nat}
    (hs : start ≤ chars.length) (h : stop ≤ chars.length) (offset : Nat)
    (more : List Char) :
    faultSpan offset (chars ++ more) start stop =
      faultSpan offset chars start stop := by
  unfold faultSpan
  rw [List.take_append_of_le_length hs, List.take_append_of_le_length h]

/-- What is found in two texts with a line break between them is what is found
in each of them. -/
theorem findings_break (offset : Nat) (cs : List Char) :
    findings offset (cs ++ '\n' :: b) =
      findings offset cs ++ findings (offset + byteLength cs + 1) b := by
  -- a blank is taken on its own, any other piece as a whole
  induction hn : cs.length using Nat.strongRecOn generalizing cs offset with
  | ind n ih =>
    subst hn
    cases cs with
    | nil =>
      rw [List.nil_append, findings_blank rfl, findings_nil, List.nil_append]
      rfl
    | cons c rest =>
      rw [List.cons_append]
      cases hc : isBlank c with
      | true =>
        rw [findings_blank hc, findings_blank hc,
          ih _ (Nat.lt_succ_self _) _ rest rfl, byteLength_cons,
          Nat.add_assoc offset]
      | false =>
        rcases hr : read c rest with ⟨piece, more⟩
        have hb := (read_break b hc).trans hr
        have hw := read_within c rest
        rw [hr] at hw
        rcases hw with hle | ⟨fault, start, hs, hf⟩
        · have hle : more ≤ rest.length := hle
          have hl : (rest.drop more).length < (c :: rest).length := by
            rw [List.length_drop, List.length_cons]
            omega
          have hsplit : byteLength (c :: rest) =
              byteLength (c :: rest.take more) +
                byteLength (rest.drop more) := by
            rw [← byteLength_append, List.cons_append, List.take_append_drop]
          rw [findings_cons hb, findings_cons hr, take_break b hle,
            drop_break b hle, ih _ hl _ _ rfl, hsplit, ← Nat.add_assoc,
            List.append_assoc]
        · -- the fault goes to the end, and the line break is passed over
          cases hf
          have htake : (rest ++ '\n' :: b).take (rest.length + 1) =
              rest ++ ['\n'] := List.take_length_add_append 1
          have hdrop : (rest ++ '\n' :: b).drop (rest.length + 1) = b :=
            List.drop_length_add_append 1
          have hlexeme : (Cut.mk (.fault fault start (rest.length + 1))
                (c :: (rest ++ ['\n']))).lexeme offset =
              (Cut.mk (.fault fault start (rest.length + 1))
                (c :: rest)).lexeme offset := by
            simp only [Cut.lexeme, ← List.cons_append]
            rw [@faultSpan_append (c :: rest) _ (rest.length + 1) hs
              (Nat.le_refl _)]
          rw [findings_cons hb, findings_cons hr, htake, hdrop, hlexeme,
            List.take_of_length_le (Nat.le_succ _),
            List.drop_eq_nil_of_le (Nat.le_succ _), findings_nil,
            List.append_nil, ← List.cons_append, byteLength_append,
            ← Nat.add_assoc]
          rfl

end

/-! ### Texts -/

theorem tokensOf_filter (lexemes : List Lexeme) :
    tokensOf (lexemes.filter (·.isFinding)) = tokensOf lexemes := by
  unfold tokensOf
  rw [List.filterMap_filter]
  refine List.filterMap_congr fun lexeme _ => ?_
  cases lexeme <;> rfl

theorem errorsOf_filter (lexemes : List Lexeme) :
    errorsOf (lexemes.filter (·.isFinding)) = errorsOf lexemes := by
  unfold errorsOf
  rw [List.filterMap_filter]
  refine List.filterMap_congr fun lexeme _ => ?_
  cases lexeme <;> rfl

theorem tokensOf_shift (n : Nat) (lexemes : List Lexeme) :
    tokensOf (lexemes.map (·.shift n)) =
      (tokensOf lexemes).map (·.shift n) := by
  unfold tokensOf
  rw [List.filterMap_map, List.map_filterMap]
  refine List.filterMap_congr fun lexeme _ => ?_
  cases lexeme <;> rfl

theorem errorsOf_shift (n : Nat) (lexemes : List Lexeme) :
    errorsOf (lexemes.map (·.shift n)) =
      (errorsOf lexemes).map (·.shift n) := by
  unfold errorsOf
  rw [List.filterMap_map, List.map_filterMap]
  refine List.filterMap_congr fun lexeme _ => ?_
  cases lexeme <;> rfl

/-- What is found in two texts with a line break between them: what is found in
the first one, and behind it what is found in the second one, further on by the
bytes that stand before it. -/
theorem findings_lines (a b : String) :
    findings 0 (a ++ "\n" ++ b).toList =
      findings 0 a.toList ++
        (findings 0 b.toList).map (·.shift (a.utf8ByteSize + 1)) := by
  have htext : (a ++ "\n" ++ b).toList = a.toList ++ '\n' :: b.toList := by
    simp [String.toList_append]
  rw [htext, findings_break, ← byteLength_toList, ← findings_add, Nat.add_assoc]

theorem tokensOf_lexemes (source : String) :
    tokensOf (lexemes source) = tokensOf (findings 0 source.toList) :=
  (tokensOf_filter _).symm

theorem errorsOf_lexemes (source : String) :
    errorsOf (lexemes source) = errorsOf (findings 0 source.toList) :=
  (errorsOf_filter _).symm

theorem tokensOf_lines (a b : String) :
    tokensOf (lexemes (a ++ "\n" ++ b)) =
      tokensOf (lexemes a) ++
        (tokensOf (lexemes b)).map (·.shift (a.utf8ByteSize + 1)) := by
  simp only [tokensOf_lexemes, findings_lines, ← tokensOf_shift]
  exact List.filterMap_append

theorem errorsOf_lines (a b : String) :
    errorsOf (lexemes (a ++ "\n" ++ b)) =
      errorsOf (lexemes a) ++
        (errorsOf (lexemes b)).map (·.shift (a.utf8ByteSize + 1)) := by
  simp only [errorsOf_lexemes, findings_lines, ← errorsOf_shift]
  exact List.filterMap_append

/-- The tokens of a text, or the diagnostics of the errors in it. -/
def tokenize (source : String) :
    Except (List Diagnostic) (List (Spanned Token)) :=
  (scan source).mapError (·.map (·.diagnostic))

/-- The diagnostics of the errors in a text. -/
def diagnostics (source : String) : List Diagnostic :=
  (errorsOf (lexemes source)).map (·.diagnostic)

/-- A text has tokens if there are no diagnostics. -/
theorem tokenize_eq (source : String) :
    tokenize source =
      if (diagnostics source).isEmpty then .ok (tokensOf (lexemes source))
      else .error (diagnostics source) := by
  unfold tokenize scan diagnostics
  rw [List.isEmpty_map]
  dsimp only
  split <;> rfl

theorem diagnostics_lines (a b : String) :
    diagnostics (a ++ "\n" ++ b) =
      diagnostics a ++ (diagnostics b).map (·.shift (a.utf8ByteSize + 1)) := by
  -- an error further on is told by its diagnostic further on
  simp only [diagnostics, errorsOf_lines, List.map_append, List.map_map]
  rfl

/-- Lines are read on their own. Two texts with a line break between them have
the tokens of the first one and behind them those of the second one, further on
by the bytes before it, and so it is with what is told of their errors; the one
does not depend on the other. -/
theorem tokenize_lines (a b : String) :
    tokensOf (lexemes (a ++ "\n" ++ b)) =
        tokensOf (lexemes a) ++
          (tokensOf (lexemes b)).map (·.shift (a.utf8ByteSize + 1)) ∧
      tokenize (a ++ "\n" ++ b) =
        match tokenize a, tokenize b with
        | .ok tokens, .ok more =>
          .ok (tokens ++ more.map (·.shift (a.utf8ByteSize + 1)))
        | .ok _, .error more =>
          .error (more.map (·.shift (a.utf8ByteSize + 1)))
        | .error told, .ok _ => .error told
        | .error told, .error more =>
          .error (told ++ more.map (·.shift (a.utf8ByteSize + 1))) := by
  refine ⟨tokensOf_lines a b, ?_⟩
  rw [tokenize_eq, tokenize_eq a, tokenize_eq b, diagnostics_lines,
    tokensOf_lines]
  cases ha : diagnostics a <;> cases hb : diagnostics b <;> simp

end Token

end ModelText
