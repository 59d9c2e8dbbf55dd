import ModelText.Proofs.Token.Lines
import Mathlib.Data.List.TakeWhile

/-!
# Numbers as they are written

A `Number` is a written number in its parts: a sign, the digits before the
point, those behind it, and a power of ten. Of a text that begins with digits,
perhaps behind a minus sign, the longest part that is a number is read; and a
number alone is read to its end, as an integer if it has neither a point nor a
power of ten and there is room for it, and as a decimal else.
-/

namespace ModelText.Token

open Decimal (digitsValue)

/-! ### Forms -/

/-- Digits, at least one. -/
structure Digits (cs : List Char) : Prop where
  ne_nil : cs ≠ []
  digit : ∀ c ∈ cs, c.isDigit = true

/-- A power of ten as it is written. -/
structure Power where
  mark : Char
  sign : List Char
  digits : List Char
  isMark : mark = 'e' ∨ mark = 'E'
  isSign : sign = [] ∨ sign = ['+'] ∨ sign = ['-']
  isDigits : Digits digits

namespace Power

/-- The characters of a power of ten. -/
def chars (p : Power) : List Char := p.mark :: (p.sign ++ p.digits)

/-- The exponent of a power of ten. -/
def value (p : Power) : Int :=
  if p.sign = ['-'] then -(digitsValue p.digits : Int)
  else digitsValue p.digits

end Power

/-- A number as it is written: perhaps a minus sign, digits, perhaps digits
behind a point, and perhaps a power of ten. -/
structure Number where
  negative : Bool
  whole : List Char
  fraction : List Char
  power? : Option Power
  isWhole : Digits whole
  isFraction : ∀ c ∈ fraction, c.isDigit = true

namespace Number

/-- A minus sign, or nothing. -/
def sign (negative : Bool) : List Char := if negative then ['-'] else []

/-- A point and digits behind it, or nothing. -/
def pointed (fraction : List Char) : List Char :=
  if fraction = [] then [] else '.' :: fraction

/-- The characters of a power of ten, or nothing. -/
def raised (power? : Option Power) : List Char :=
  (power?.map Power.chars).getD []

/-- The characters of a number. -/
def chars (n : Number) : List Char :=
  sign n.negative ++ (n.whole ++ (pointed n.fraction ++ raised n.power?))

/-- Neither a point nor a power of ten is written. -/
def IsInteger (n : Number) : Prop := n.fraction = [] ∧ n.power? = none

/-- The value of the digits before the point. -/
def integer (n : Number) : Int :=
  if n.negative then -(digitsValue n.whole : Int) else digitsValue n.whole

/-- The value of all that is written. -/
def decimal (n : Number) : Decimal :=
  .ofDigits n.negative (digitsValue (n.whole ++ n.fraction))
    ((n.power?.map Power.value).getD 0 - n.fraction.length)

end Number

/-! ### Characters of a kind -/

section

variable {kind : Char → Bool} {cs tail : List Char}

theorem takeWhile_append (h : ∀ c ∈ cs, kind c = true)
    (ht : ∀ c ∈ tail.head?, kind c = false) :
    (cs ++ tail).takeWhile kind = cs := by
  rw [takeWhile_append_of_head? ht, List.takeWhile_eq_self_iff.2 h]

theorem dropWhile_append (h : ∀ c ∈ cs, kind c = true)
    (ht : ∀ c ∈ tail.head?, kind c = false) :
    (cs ++ tail).dropWhile kind = tail := by
  rw [List.dropWhile_append_of_pos h]
  cases tail with
  | nil => rfl
  | cons c tail => simp [ht c rfl]

theorem countWhile_append (h : ∀ c ∈ cs, kind c = true)
    (ht : ∀ c ∈ tail.head?, kind c = false) :
    countWhile kind (cs ++ tail) = cs.length :=
  congrArg List.length (takeWhile_append h ht)

theorem length_le_countWhile (h : ∀ c ∈ cs, kind c = true) (tail : List Char) :
    cs.length ≤ countWhile kind (cs ++ tail) := by
  rw [countWhile, List.takeWhile_append_of_pos h, List.length_append]
  exact Nat.le_add_right _ _

end

theorem take_countWhile (kind : Char → Bool) (cs : List Char) :
    cs.take (countWhile kind cs) = cs.takeWhile kind :=
  (List.prefix_iff_eq_take.1 (List.takeWhile_prefix kind)).symm

theorem drop_countWhile (kind : Char → Bool) (cs : List Char) :
    cs.drop (countWhile kind cs) = cs.dropWhile kind := by
  have h : (cs.takeWhile kind ++ cs.dropWhile kind).drop (countWhile kind cs) =
      cs.dropWhile kind := List.drop_left
  rwa [List.takeWhile_append_dropWhile] at h

theorem ne_of_isDigit {c d : Char} (hc : c.isDigit = true)
    (hd : d.isDigit = false) : c ≠ d := by
  rintro rfl
  rw [hd] at hc
  cases hc

theorem val_le_of_isDigit {c : Char} (h : c.isDigit = true) :
    c.val ≤ '9'.val :=
  of_decide_eq_true (Bool.and_eq_true_iff.1 h).2

/-- Digits come before letters. -/
theorem isDigit_of_isAlpha {c : Char} (h : c.isAlpha = true) :
    c.isDigit = false := by
  have hletter : 'A'.val ≤ c.val := by
    rcases Bool.or_eq_true_iff.1 h with hu | hl
    · exact (of_decide_eq_true hu).1
    · have ha := of_decide_eq_true (Bool.and_eq_true_iff.1 hl).1
      exact UInt32.le_trans (show 'A'.val ≤ 'a'.val by decide) ha
  refine Bool.eq_false_iff.2 fun hd => ?_
  exact absurd (UInt32.le_trans hletter (val_le_of_isDigit hd)) (by decide)

/-- A digit is no capital letter. -/
theorem toLower_of_isDigit {c : Char} (h : c.isDigit = true) : c.toLower = c := by
  refine dif_neg fun hu => ?_
  exact absurd (UInt32.le_trans hu.1 (val_le_of_isDigit h)) (by decide)

/-! ### Reading numbers -/

namespace Digits

variable {cs : List Char} (h : Digits cs)

include h

theorem exists_cons : ∃ c rest, cs = c :: rest ∧ c.isDigit = true := by
  obtain ⟨c, rest, rfl⟩ := List.exists_cons_of_ne_nil h.ne_nil
  exact ⟨c, rest, rfl, h.digit c List.mem_cons_self⟩

theorem length_ne_zero : cs.length ≠ 0 :=
  fun hn => h.ne_nil (List.eq_nil_of_length_eq_zero hn)

end Digits

namespace Number

/-- Digits end where a number is raised, and there is no point. -/
theorem head?_raised (p : Power) (tail : List Char) :
    ∀ c ∈ (raised (some p) ++ tail).head?, c.isDigit = false ∧ c ≠ '.' := by
  rintro c ⟨⟩
  rcases p.isMark with h | h <;> rw [h] <;> decide

theorem head?_raised_nil (power? : Option Power) :
    ∀ c ∈ (raised power?).head?, c.isDigit = false ∧ c ≠ '.' := by
  cases power? with
  | none => exact nofun
  | some p =>
    have h := head?_raised p []
    rwa [List.append_nil] at h

/-- Digits end where a point stands. -/
theorem head?_pointed {fraction rest : List Char}
    (h : ∀ c ∈ rest.head?, c.isDigit = false) :
    ∀ c ∈ (pointed fraction ++ rest).head?, c.isDigit = false := by
  unfold pointed
  split
  · exact h
  · rintro c ⟨⟩
    rfl

/-- The digits behind a point, and what follows them. -/
def splitFraction : List Char → List Char × List Char
  | '.' :: rest => (rest.takeWhile Char.isDigit, rest.dropWhile Char.isDigit)
  | rest => ([], rest)

theorem splitFraction_pointed {fraction rest : List Char}
    (h : ∀ c ∈ fraction, c.isDigit = true)
    (hr : ∀ c ∈ rest.head?, c.isDigit = false ∧ c ≠ '.') :
    splitFraction (pointed fraction ++ rest) = (fraction, rest) := by
  unfold pointed
  split
  · next hf =>
    rw [hf, List.nil_append]
    unfold splitFraction
    split
    · exact absurd rfl (hr '.' rfl).2
    · rfl
  · rw [List.cons_append, splitFraction,
      takeWhile_append h fun c hc => (hr c hc).1,
      dropWhile_append h fun c hc => (hr c hc).1]

theorem fractionLength_eq (cs : List Char) :
    fractionLength cs = (pointed (splitFraction cs).1).length := by
  cases cs with
  | nil => rfl
  | cons c rest =>
    by_cases hc : c = '.'
    · subst hc
      by_cases hn : rest.takeWhile Char.isDigit = []
      · simp [fractionLength, splitFraction, pointed, countWhile, hn]
      · simp [fractionLength, splitFraction, pointed, countWhile, hn]
    · simp [fractionLength, splitFraction, pointed, hc]

/-! A number is read to its end at least -/

theorem length_le_fractionLength {fraction : List Char}
    (h : ∀ c ∈ fraction, c.isDigit = true) (tail : List Char) :
    (pointed fraction).length ≤ fractionLength (pointed fraction ++ tail) := by
  unfold pointed
  split
  · exact Nat.zero_le _
  · next hn =>
    have hle := length_le_countWhile h tail
    have hpos := List.length_pos_of_ne_nil hn
    rw [List.cons_append, fractionLength, if_neg (by omega), List.length_cons]
    exact Nat.succ_le_succ hle

theorem signLength_append (p : Power) (tail : List Char) :
    signLength (p.sign ++ (p.digits ++ tail)) = p.sign.length := by
  rcases p.isSign with h | h | h
  · obtain ⟨c, rest, hd, hc⟩ := p.isDigits.exists_cons
    rw [h, hd]
    exact if_neg (not_or.2 ⟨ne_of_isDigit hc rfl, ne_of_isDigit hc rfl⟩)
  · rw [h]
    rfl
  · rw [h]
    rfl

theorem length_le_powerLength (p : Power) (tail : List Char) :
    p.chars.length ≤ powerLength (p.chars ++ tail) := by
  have hle := length_le_countWhile p.isDigits.digit tail
  have hpos := p.isDigits.length_ne_zero
  unfold Power.chars
  rw [List.cons_append, List.append_assoc, powerLength, if_pos p.isMark,
    signLength_append]
  dsimp only
  rw [List.drop_left, if_neg (by omega), List.length_cons, List.length_append]
  omega

/-- Where a number is no integer, the digits before the point end. -/
theorem head?_suffix {n : Number} (h : ¬ n.IsInteger) (tail : List Char) :
    ∀ c ∈ (pointed n.fraction ++ (raised n.power? ++ tail)).head?,
      c.isDigit = false := by
  cases hp : n.power? with
  | some p => exact head?_pointed fun c hc => (head?_raised p tail c hc).1
  | none =>
    rw [pointed, if_neg fun hf => h ⟨hf, hp⟩]
    rintro c ⟨⟩
    rfl

/-- What follows the digits before the point is read to its end. -/
theorem length_le_suffix (n : Number) (tail : List Char) :
    (pointed n.fraction ++ raised n.power?).length ≤
      fractionLength (pointed n.fraction ++ (raised n.power? ++ tail)) +
        powerLength ((pointed n.fraction ++ (raised n.power? ++ tail)).drop
          (fractionLength (pointed n.fraction ++ (raised n.power? ++ tail)))) := by
  cases n.power? with
  | none =>
    have hle := length_le_fractionLength n.isFraction tail
    change (pointed n.fraction ++ []).length ≤
      fractionLength (pointed n.fraction ++ tail) + _
    rw [List.append_nil]
    exact Nat.le_trans hle (Nat.le_add_right _ _)
  | some p =>
    have hle := length_le_powerLength p tail
    rw [fractionLength_eq, splitFraction_pointed n.isFraction (head?_raised p tail),
      List.drop_left, List.length_append]
    exact Nat.add_le_add_left hle _

theorem minusLength_chars (n : Number) (tail : List Char) :
    minusLength (n.chars ++ tail) = (sign n.negative).length := by
  unfold chars
  cases n.negative with
  | true => rfl
  | false =>
    obtain ⟨c, rest, hw, hc⟩ := n.isWhole.exists_cons
    rw [hw]
    change minusLength (c :: _) = 0
    have hminus : c ≠ '-' := ne_of_isDigit hc rfl
    simp [minusLength, hminus]

/-- A number is read to its end at least. -/
theorem length_le_numberLength (n : Number) (tail : List Char) :
    n.chars.length ≤ numberLength (n.chars ++ tail) := by
  have hdrop : (n.chars ++ tail).drop (sign n.negative).length =
      n.whole ++ (pointed n.fraction ++ (raised n.power? ++ tail)) := by
    simp only [chars, List.append_assoc, List.drop_left]
  have hle := length_le_countWhile n.isWhole.digit
    (pointed n.fraction ++ (raised n.power? ++ tail))
  have hpos := n.isWhole.length_ne_zero
  have hlength : n.chars.length = (sign n.negative).length + n.whole.length +
      (pointed n.fraction ++ raised n.power?).length := by
    simp only [chars, List.length_append]
    omega
  rw [numberLength_eq, minusLength_chars, hdrop, hlength]
  dsimp only
  rw [if_neg (by omega)]
  by_cases hi : n.IsInteger
  · -- the digits may go on in the tail
    have hnone : (pointed n.fraction ++ raised n.power?).length = 0 := by
      rw [hi.1, hi.2]
      rfl
    omega
  · have hcount := countWhile_append n.isWhole.digit (head?_suffix hi tail)
    have hsuffix := n.length_le_suffix tail
    rw [hcount, ← List.drop_drop, ← List.drop_drop, ← List.drop_drop, hdrop,
      List.drop_left]
    omega

/-- A number alone is read to its end. -/
theorem numberLength_chars (n : Number) :
    numberLength n.chars = n.chars.length := by
  have hle := n.length_le_numberLength []
  rw [List.append_nil] at hle
  exact Nat.le_antisymm (numberLength_le n.chars) hle

/-- A number begins with a minus sign or with a digit. -/
theorem exists_cons (n : Number) :
    ∃ c rest, n.chars = c :: rest ∧ (c = '-' ∨ c.isDigit = true) := by
  unfold chars
  cases n.negative with
  | true => exact ⟨'-', _, rfl, .inl rfl⟩
  | false =>
    obtain ⟨c, rest, hw, hc⟩ := n.isWhole.exists_cons
    exact ⟨c, _, by rw [hw]; rfl, .inr hc⟩

/-! The parts of a number that is read -/

theorem digits_takeWhile {cs : List Char}
    (h : countWhile Char.isDigit cs ≠ 0) : Digits (cs.takeWhile Char.isDigit) where
  ne_nil hn := h (congrArg List.length hn)
  digit _ hc := List.mem_takeWhile_imp hc

theorem exists_fraction (cs : List Char) :
    ∃ fraction, (∀ c ∈ fraction, c.isDigit = true) ∧
      cs.take (fractionLength cs) = pointed fraction := by
  unfold fractionLength
  split
  · next rest =>
    dsimp only
    split
    · exact ⟨[], nofun, rfl⟩
    · next hn =>
      have hd := digits_takeWhile hn
      refine ⟨rest.takeWhile Char.isDigit, hd.digit, ?_⟩
      rw [List.take_succ_cons, take_countWhile, pointed, if_neg hd.ne_nil]
  · exact ⟨[], nofun, rfl⟩

theorem take_signLength (cs : List Char) :
    cs.take (signLength cs) = [] ∨ cs.take (signLength cs) = ['+'] ∨
      cs.take (signLength cs) = ['-'] := by
  unfold signLength
  split
  · split
    · next h => rcases h with rfl | rfl <;> simp
    · exact .inl rfl
  · exact .inl rfl

theorem exists_power (cs : List Char) :
    ∃ power?, cs.take (powerLength cs) = raised power? := by
  unfold powerLength
  split
  · next mark rest =>
    split
    · next hm =>
      dsimp only
      split
      · exact ⟨none, rfl⟩
      · next hn =>
        refine ⟨some ⟨mark, rest.take (signLength rest), _, hm,
          take_signLength rest, digits_takeWhile hn⟩, ?_⟩
        rw [Nat.add_assoc, Nat.add_comm 1, List.take_succ_cons, List.take_add,
          take_countWhile]
        rfl
    · exact ⟨none, rfl⟩
  · exact ⟨none, rfl⟩

theorem take_minusLength (cs : List Char) :
    ∃ negative, cs.take (minusLength cs) = sign negative := by
  unfold minusLength
  split
  · exact ⟨true, rfl⟩
  · exact ⟨false, rfl⟩

/-- What is read as a number is one. -/
theorem exists_number {cs : List Char} (h : numberLength cs ≠ 0) :
    ∃ n : Number, cs.take (numberLength cs) = n.chars := by
  rw [numberLength_eq] at h ⊢
  dsimp only at h ⊢
  split at h
  · exact absurd rfl h
  · next hn =>
    obtain ⟨negative, hs⟩ := take_minusLength cs
    obtain ⟨fraction, hd, hf⟩ := exists_fraction (cs.drop (minusLength cs +
      countWhile Char.isDigit (cs.drop (minusLength cs))))
    obtain ⟨power?, hp⟩ := exists_power (cs.drop (minusLength cs +
      countWhile Char.isDigit (cs.drop (minusLength cs)) +
      fractionLength (cs.drop (minusLength cs +
        countWhile Char.isDigit (cs.drop (minusLength cs))))))
    refine ⟨⟨negative, _, fraction, power?, digits_takeWhile hn, hd⟩, ?_⟩
    rw [if_neg hn, List.take_add, List.take_add, List.take_add, hp, hf, hs,
      take_countWhile]
    simp only [chars, List.append_assoc]

/-! The token of a number -/

theorem chars_of_isInteger {n : Number} (h : n.IsInteger) :
    n.chars = sign n.negative ++ n.whole := by
  simp [chars, h.1, h.2, pointed, raised]

theorem integerValue_chars {n : Number} (h : n.IsInteger) :
    integerValue n.chars = n.integer := by
  rw [chars_of_isInteger h, integer]
  cases n.negative with
  | true => rfl
  | false =>
    obtain ⟨c, rest, hw, hc⟩ := n.isWhole.exists_cons
    rw [hw]
    change integerValue (c :: rest) = _
    unfold integerValue
    split
    · next he =>
      cases he
      cases hc
    · rfl

/-- A point or a mark of a power is written just where the number is no
integer. -/
theorem any_chars (n : Number) :
    n.chars.any (fun c => c == '.' || c == 'e' || c == 'E') = true ↔
      ¬ n.IsInteger := by
  have hdigit : ∀ c : Char, c.isDigit = true →
      ¬ (c == '.' || c == 'e' || c == 'E') = true := by
    rintro c hc h
    simp only [Bool.or_eq_true, beq_iff_eq] at h
    rcases h with (rfl | rfl) | rfl <;> cases hc
  constructor
  · rintro h ⟨hf, hp⟩
    obtain ⟨c, hm, hc⟩ := List.any_eq_true.1 h
    simp only [chars, hf, hp, pointed, raised, if_true, Option.map_none,
      Option.getD_none, List.append_nil, List.mem_append] at hm
    rcases hm with hm | hm
    · unfold sign at hm
      split at hm
      · rw [List.mem_singleton.1 hm] at hc
        cases hc
      · cases hm
    · exact hdigit c (n.isWhole.digit c hm) hc
  · intro h
    refine List.any_eq_true.2 ?_
    by_cases hf : n.fraction = []
    · cases hp : n.power? with
      | none => exact absurd ⟨hf, hp⟩ h
      | some p =>
        refine ⟨p.mark, ?_, ?_⟩
        · simp [chars, hp, raised, Power.chars]
        · rcases p.isMark with hm | hm <;> rw [hm] <;> rfl
    · refine ⟨'.', ?_, rfl⟩
      simp [chars, pointed, hf]

/-- The sign of a power, and what follows it. -/
def splitSign (cs : List Char) : Bool × List Char :=
  match cs with
  | '+' :: rest => (false, rest)
  | '-' :: rest => (true, rest)
  | _ => (false, cs)

theorem readPower?_eq (cs : List Char) :
    Decimal.readPower? cs =
      if (splitSign cs).2.isEmpty || !(splitSign cs).2.all Char.isDigit then none
      else some (if (splitSign cs).1 then -(digitsValue (splitSign cs).2 : Int)
        else digitsValue (splitSign cs).2) := rfl

theorem splitSign_digits {cs : List Char} (h : Digits cs) :
    splitSign cs = (false, cs) := by
  obtain ⟨c, rest, rfl, hc⟩ := h.exists_cons
  unfold splitSign
  split
  · next he =>
    cases he
    cases hc
  · next he =>
    cases he
    cases hc
  · rfl

theorem splitSign_power (p : Power) :
    splitSign (p.sign ++ p.digits) = (decide (p.sign = ['-']), p.digits) := by
  rcases p.isSign with h | h | h
  · rw [h]
    exact splitSign_digits p.isDigits
  · rw [h]
    rfl
  · rw [h]
    rfl

theorem readSuffix?_raised (power? : Option Power) :
    Decimal.readSuffix? (raised power?) =
      some ((power?.map Power.value).getD 0) := by
  cases power? with
  | none => rfl
  | some p =>
    change Decimal.readSuffix? (p.mark :: (p.sign ++ p.digits)) = some p.value
    have hread : ¬ (p.digits.isEmpty || !p.digits.all Char.isDigit) = true := by
      simp [p.isDigits.ne_nil, List.all_eq_true.2 p.isDigits.digit]
    rw [Decimal.readSuffix?, if_pos p.isMark, readPower?_eq, splitSign_power,
      if_neg hread, Power.value]
    simp only [decide_eq_true_eq]

theorem readUnsigned?_eq (negative : Bool) (cs : List Char) :
    Decimal.readUnsigned? negative cs =
      let whole := cs.takeWhile Char.isDigit
      let parts := splitFraction (cs.dropWhile Char.isDigit)
      if (whole ++ parts.1).isEmpty then none
      else (Decimal.readSuffix? parts.2).map fun power =>
        .ofDigits negative (digitsValue (whole ++ parts.1))
          (power - parts.1.length) := rfl

theorem readUnsigned?_chars (n : Number) :
    Decimal.readUnsigned? n.negative
        (n.whole ++ (pointed n.fraction ++ raised n.power?)) =
      some n.decimal := by
  have hraised := head?_raised_nil n.power?
  have htail := @head?_pointed n.fraction _ fun c hc => (hraised c hc).1
  rw [readUnsigned?_eq, takeWhile_append n.isWhole.digit htail,
    dropWhile_append n.isWhole.digit htail,
    splitFraction_pointed n.isFraction hraised]
  dsimp only
  rw [readSuffix?_raised, if_neg]
  · rfl
  · simp [n.isWhole.ne_nil]

/-- Digits do not begin the name of a value without digits. -/
theorem readMagnitude?_digits {cs : List Char} (h : Digits cs)
    (negative : Bool) (tail : List Char) :
    Decimal.readMagnitude? negative (cs ++ tail) =
      Decimal.readUnsigned? negative (cs ++ tail) := by
  obtain ⟨c, rest, rfl, hc⟩ := h.exists_cons
  have hlower := toLower_of_isDigit hc
  have hi : c ≠ 'i' := ne_of_isDigit hc rfl
  have hn : c ≠ 'n' := ne_of_isDigit hc rfl
  simp [Decimal.readMagnitude?, hlower, hi, hn]

theorem ofChars?_chars (n : Number) :
    Decimal.ofChars? n.chars = some n.decimal := by
  rw [← readUnsigned?_chars, ← readMagnitude?_digits n.isWhole, chars]
  cases n.negative with
  | true => rfl
  | false =>
    obtain ⟨c, rest, hw, hc⟩ := n.isWhole.exists_cons
    have hplus : c ≠ '+' := ne_of_isDigit hc rfl
    have hminus : c ≠ '-' := ne_of_isDigit hc rfl
    rw [hw]
    change Decimal.ofChars? (c :: _) = _
    simp [Decimal.ofChars?, hplus, hminus]

/-- There is room for an integer just where it is one of 64 bits. -/
theorem exists_toInt_eq_iff {i : Int} :
    (∃ value : Int64, value.toInt = i) ↔
      Int64.minValue.toInt ≤ i ∧ i ≤ Int64.maxValue.toInt := by
  constructor
  · rintro ⟨value, rfl⟩
    exact ⟨value.minValue_le_toInt, value.toInt_le⟩
  · rintro ⟨hmin, hmax⟩
    rw [Int64.toInt_minValue] at hmin
    rw [Int64.toInt_maxValue] at hmax
    exact ⟨.ofInt i, Int64.toInt_ofInt_of_le hmin (by omega)⟩

theorem ofNumber?_of_isInteger {n : Number} (h : n.IsInteger) :
    ofNumber? n.chars =
      if Int64.minValue.toInt ≤ n.integer ∧ n.integer ≤ Int64.maxValue.toInt then
        some (.integer (.ofInt n.integer))
      else none := by
  unfold ofNumber?
  rw [if_neg (mt (any_chars n).1 (not_not_intro h)), integerValue_chars h]

theorem ofNumber?_integer {n : Number} {value : Int64} (h : n.IsInteger)
    (hv : value.toInt = n.integer) : ofNumber? n.chars = some (.integer value) := by
  rw [ofNumber?_of_isInteger h, if_pos (exists_toInt_eq_iff.1 ⟨value, hv⟩), ← hv,
    Int64.ofInt_toInt]

theorem ofNumber?_decimal {n : Number} (h : ¬ n.IsInteger) :
    ofNumber? n.chars = some (.decimal n.decimal) := by
  unfold ofNumber?
  rw [if_pos ((any_chars n).2 h), ofChars?_chars]
  rfl

/-- A number with a token is an integer for which there is room, or a decimal. -/
theorem ofNumber?_eq_some {n : Number} {t : Token}
    (h : ofNumber? n.chars = some t) :
    (n.IsInteger ∧ ∃ value : Int64, value.toInt = n.integer ∧
      t = .integer value) ∨ (¬ n.IsInteger ∧ t = .decimal n.decimal) := by
  by_cases hi : n.IsInteger
  · rw [ofNumber?_of_isInteger hi] at h
    split at h
    · next hr =>
      obtain ⟨value, hv⟩ := exists_toInt_eq_iff.2 hr
      rw [← hv, Int64.ofInt_toInt] at h
      exact .inl ⟨hi, value, hv, (Option.some.inj h).symm⟩
    · cases h
  · rw [ofNumber?_decimal hi] at h
    exact .inr ⟨hi, (Option.some.inj h).symm⟩

end Number

end ModelText.Token
