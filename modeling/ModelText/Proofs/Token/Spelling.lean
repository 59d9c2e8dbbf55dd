import ModelText.Proofs.Token.Numbers

/-!
# What texts denote

Each token is denoted by certain texts: a keyword and a mark by their own
spelling, a name by itself, a number by its digits, and a string by the
characters and escapes of its content. `Token.Denotes` tells this without
reading, form by form. A text that denotes a token is read as this token, and to
its end; so it denotes no other one.
-/

namespace ModelText.Token

/-! ### Forms -/

/-- What stands behind a backslash for a character: a letter, or the number of
the character in up to six hexadecimal digits. -/
inductive Escaped : List Char → Char → Prop
  | letter {c value : Char} : letterEscape? c = some value → Escaped [c] value
  | number {digits : List Char} {value : Char} : digits ≠ [] →
    digits.length ≤ 6 → (∀ c ∈ digits, isHexDigit c = true) →
    charOfNumber? (hexValue digits) = some value →
    Escaped ('u' :: '{' :: (digits ++ ['}'])) value

/-- What stands between the marks of a string, and the characters that it stands
for: most characters stand for themselves, and the others are escaped. -/
inductive Content : List Char → List Char → Prop
  | nil : Content [] []
  | plain {c : Char} {body content : List Char} :
    c ≠ '"' → c ≠ '\\' → c ≠ '\n' → c ≠ '\r' → Content body content →
    Content (c :: body) (c :: content)
  | escape {escaped body content : List Char} {value : Char} :
    Escaped escaped value → Content body content →
    Content ('\\' :: (escaped ++ body)) (value :: content)

/-- The token that a text denotes. -/
inductive Denotes : List Char → Token → Prop
  | keyword (k : Keyword) : Denotes k.text.toList (.keyword k)
  | identifier {c : Char} {cs : List Char} : isNameStart c = true →
    (∀ d ∈ cs, isNameChar d = true) → (∀ k : Keyword, k.text.toList ≠ c :: cs) →
    Denotes (c :: cs) (.identifier (String.ofList (c :: cs)))
  | integer {n : Number} {value : Int64} : n.IsInteger →
    value.toInt = n.integer → Denotes n.chars (.integer value)
  | decimal {n : Number} : ¬ n.IsInteger → Denotes n.chars (.decimal n.decimal)
  | string {body content : List Char} : Content body content →
    Denotes ('"' :: (body ++ ['"'])) (.string (String.ofList content))
  | mark (m : Mark) : Denotes m.text.toList (.mark m)

/-! ### Reading strings -/

theorem escape_escaped {escaped : List Char} {value : Char}
    (h : Escaped escaped value) (tail : List Char) :
    escape (escaped ++ tail) = ⟨escaped.length, some value⟩ := by
  cases h with
  | @letter c _ hl =>
    have hu : c ≠ 'u' := by
      rintro rfl
      cases hl
    change escape (c :: tail) = _
    rw [escape, if_neg hu, hl]
    rfl
  | @number digits _ hn hle hx hv =>
    change numberEscape ('{' :: ((digits ++ ['}']) ++ tail)) = _
    rw [List.append_assoc, List.singleton_append, numberEscape]
    have htake : ((digits ++ '}' :: tail).take 6).takeWhile isHexDigit =
        digits := by
      rw [List.take_append, List.take_of_length_le hle]
      refine takeWhile_append hx ?_
      intro c hc
      cases hk : 6 - digits.length with
      | zero =>
        rw [hk] at hc
        cases hc
      | succ k =>
        rw [hk] at hc
        cases hc
        rfl
    have hlength : ('u' :: '{' :: (digits ++ ['}'])).length =
        digits.length + 3 := by
      simp only [List.length_cons, List.length_append, List.length_nil]
    rw [htake, if_neg (by simpa using hn), List.drop_left,
      if_pos List.head?_cons, hv, hlength]

/-- The content of a string is read to the closing mark. -/
theorem stringBody_content {body content : List Char} (h : Content body content)
    (tail : List Char) :
    stringBody (body ++ '"' :: tail) = ⟨content, body.length, .closed⟩ := by
  induction h with
  | nil =>
    rw [List.nil_append, stringBody]
    rfl
  | plain hq hs hn hr _ ih =>
    rw [List.cons_append, stringBody, if_neg hq, if_neg (by simp [hn, hr]),
      if_neg hs, ih, StringBody.cons, Nat.add_comm]
    rfl
  | @escape escaped body content value he _ ih =>
    rw [List.cons_append, List.append_assoc, stringBody, if_neg (by decide),
      if_neg (by decide), if_pos rfl, escape_escaped he]
    dsimp only
    rw [List.drop_left, ih, StringBody.cons]
    simp only [List.length_cons, List.length_append, StringBody.mk.injEq,
      true_and, and_true]
    omega

/-! The parts of a string that is read -/

theorem escaped_of_numberEscape {cs : List Char} {length : Nat} {value : Char}
    (h : numberEscape cs = ⟨length, some value⟩) :
    Escaped ('u' :: cs.take (length - 1)) value ∧ 0 < length := by
  unfold numberEscape at h
  split at h
  · next rest =>
    have hpre : (rest.take 6).takeWhile isHexDigit <+: rest :=
      (List.takeWhile_prefix _).trans (List.take_prefix 6 rest)
    have hlen : ((rest.take 6).takeWhile isHexDigit).length ≤ 6 :=
      (List.takeWhile_prefix _).length_le.trans (List.length_take_le 6 rest)
    have hhex : ∀ c ∈ (rest.take 6).takeWhile isHexDigit, isHexDigit c = true :=
      fun c hc => List.mem_takeWhile_imp hc
    generalize (rest.take 6).takeWhile isHexDigit = digits at h hpre hlen hhex
    obtain ⟨behind, rfl⟩ := hpre
    dsimp only at h
    split at h
    · cases h
    next hn =>
    split at h
    · next hclosed =>
      split at h
      · next hv =>
        cases h
        rw [List.drop_left] at hclosed
        obtain ⟨tail, rfl⟩ := List.head?_eq_some_iff.1 hclosed
        refine ⟨?_, Nat.succ_pos _⟩
        have htake : ('{' :: (digits ++ '}' :: tail)).take
            (digits.length + 3 - 1) = '{' :: (digits ++ ['}']) := by
          rw [Nat.add_sub_assoc (by decide), List.take_succ_cons,
            List.take_length_add_append 1]
          rfl
        rw [htake]
        exact .number (by simpa using hn) hlen hhex hv
      · cases h
    · cases h
  · cases h

theorem escaped_of_escape {cs : List Char} {length : Nat} {value : Char}
    (h : escape cs = ⟨length, some value⟩) :
    length ≤ cs.length ∧ Escaped (cs.take length) value := by
  have hle := escape_le cs
  rw [h] at hle
  refine ⟨hle, ?_⟩
  unfold escape at h
  split at h
  · cases h
  · split at h
    · next hu =>
      obtain ⟨hx, hpos⟩ := escaped_of_numberEscape h
      obtain ⟨n, rfl⟩ := Nat.exists_eq_succ_of_ne_zero (Nat.ne_of_gt hpos)
      rw [hu]
      exact hx
    · split at h
      · next hl =>
        cases h
        exact .letter hl
      · cases h

/-- What stands behind the content of a string, where it ends. -/
def StringEnd.Stands : StringEnd → List Char → Prop
  | .closed, tail => ∃ rest, tail = '"' :: rest
  | .unclosed, tail => ∀ c ∈ tail.head?, c = '\n' ∨ c = '\r'
  | .badEscape length, tail =>
    ∃ rest, tail = '\\' :: rest ∧ escape rest = ⟨length, none⟩

theorem content_of_stringBody (cs : List Char) :
    ∃ body tail, cs = body ++ tail ∧ body.length = (stringBody cs).length ∧
      Content body (stringBody cs).content ∧
      (stringBody cs).ending.Stands tail := by
  fun_induction stringBody cs with
  | case1 => exact ⟨[], [], rfl, rfl, .nil, fun c hc => by cases hc⟩
  | case2 rest => exact ⟨[], '"' :: rest, rfl, rfl, .nil, rest, rfl⟩
  | case3 c rest _ hl =>
    refine ⟨[], c :: rest, rfl, rfl, .nil, ?_⟩
    rintro d ⟨⟩
    exact hl
  | case4 rest length value he _ _ ih =>
    obtain ⟨body, tail, hs, hl, hc, hstands⟩ := ih
    obtain ⟨hle, hx⟩ := escaped_of_escape he
    refine ⟨'\\' :: (rest.take length ++ body), tail, ?_, ?_, .escape hx hc,
      hstands⟩
    · rw [List.cons_append, List.append_assoc, ← hs, List.take_append_drop]
    · simp only [StringBody.cons, List.length_cons, List.length_append,
        List.length_take]
      omega
  | case5 rest length he => exact ⟨[], '\\' :: rest, rfl, rfl, .nil, rest, rfl, he⟩
  | case6 c rest hq hn hs ih =>
    obtain ⟨body, tail, hr, hl, hc, hstands⟩ := ih
    obtain ⟨hn, hr'⟩ := not_or.1 hn
    refine ⟨c :: body, tail, ?_, ?_, .plain hq hs hn hr' hc, hstands⟩
    · rw [hr, List.cons_append]
    · simp only [StringBody.cons, List.length_cons]
      omega

/-! ### Reading words -/

/-- A name begins with none of the characters that begin something else. -/
theorem read_of_isNameStart {c : Char} (h : isNameStart c = true)
    (rest : List Char) :
    read c rest = ⟨.token (ofWord (String.ofList
      (c :: rest.takeWhile isNameChar))), countWhile isNameChar rest⟩ := by
  have hne : ∀ d : Char, isNameStart d = false → c ≠ d := by
    rintro d hd rfl
    rw [h] at hd
    cases hd
  have hblank : isBlank c = false := by
    simp [isBlank, hne ' ' rfl, hne '\t' rfl, hne '\r' rfl, hne '\n' rfl]
  have hdigit : c.isDigit = false := by
    rw [isNameStart, Bool.or_eq_true, beq_iff_eq] at h
    rcases h with h | rfl
    · exact isDigit_of_isAlpha h
    · rfl
  have hnumber : numberLength (c :: rest) = 0 := by
    have hminus : minusLength (c :: rest) = 0 := by
      simp [minusLength, hne '-' rfl]
    rw [numberLength_eq, hminus, List.drop_zero]
    dsimp only
    rw [if_pos]
    simp [countWhile, hdigit]
  unfold read
  simp only [hblank, hnumber, h, hne '/' rfl, hne '"' rfl]
  simp

theorem read_word {c : Char} {cs tail : List Char} (hc : isNameStart c = true)
    (hcs : ∀ d ∈ cs, isNameChar d = true) (ht : EndsWord tail) :
    read c (cs ++ tail) =
      ⟨.token (ofWord (String.ofList (c :: cs))), cs.length⟩ := by
  rw [read_of_isNameStart hc, countWhile_append hcs ht.not_nameChar,
    takeWhile_append hcs ht.not_nameChar]

theorem text_of_ofChar? {c : Char} {m : Mark} (h : Mark.ofChar? c = some m) :
    m.text.toList = [c] := by
  unfold Mark.ofChar? at h
  split at h <;> cases h <;> rfl

/-- What begins with a minus sign or a digit is a number or nothing. -/
theorem read_of_isDigit {c : Char} (hc : c = '-' ∨ c.isDigit = true)
    (rest : List Char) :
    read c rest =
      let number := numberLength (c :: rest)
      if number ≠ 0 && !continuesName ((c :: rest).drop number) then
        readNumber (c :: rest) number
      else .fault .unexpectedCharacter 0 0 := by
  have hne : ∀ d : Char, d ≠ '-' → d.isDigit = false → c ≠ d := by
    rintro d hd hdigit rfl
    rcases hc with rfl | hc
    · exact hd rfl
    · exact ne_of_isDigit hc hdigit rfl
  have hblank : isBlank c = false := by
    simp [isBlank, hne ' ' (by decide) rfl, hne '\t' (by decide) rfl,
      hne '\r' (by decide) rfl, hne '\n' (by decide) rfl]
  have hname : isNameStart c = false := by
    rcases hc with rfl | hc
    · rfl
    · have halpha : c.isAlpha = false := Bool.eq_false_iff.2 fun ha =>
        ne_of_isDigit hc (isDigit_of_isAlpha ha) rfl
      simp [isNameStart, halpha, hne '_' (by decide) rfl]
  have hmark : Mark.ofChar? c = none := by
    cases hm : Mark.ofChar? c with
    | none => rfl
    | some m =>
      have htext := text_of_ofChar? hm
      cases m <;> cases htext <;> revert hc <;> decide
  unfold read readMark
  simp only [hblank, hname, hmark, hne '/' (by decide) rfl,
    hne '"' (by decide) rfl, hne '#' (by decide) rfl, false_and,
    Bool.false_eq_true, if_false]

theorem read_number {n : Number} {t : Token} {tail : List Char}
    (h : ofNumber? n.chars = some t) (ht : EndsWord tail) :
    ∃ c rest, n.chars = c :: rest ∧
      read c (rest ++ tail) = ⟨.token t, rest.length⟩ := by
  obtain ⟨c, rest, hcs, hc⟩ := n.exists_cons
  have hlength : numberLength (c :: (rest ++ tail)) = (c :: rest).length := by
    rw [← List.cons_append, ← hcs, numberLength_append ht,
      n.numberLength_chars]
  have htake : (c :: (rest ++ tail)).take (c :: rest).length = c :: rest :=
    List.take_left
  have hdrop : (c :: (rest ++ tail)).drop (c :: rest).length = tail :=
    List.drop_left
  have hends : continuesName tail = false :=
    @continuesName_append [] tail ht
  rw [hcs] at h
  refine ⟨c, rest, hcs, ?_⟩
  rw [read_of_isDigit hc, hlength]
  simp only [readNumber, htake, hdrop, hends, h]
  rfl

theorem ofWord_text (k : Keyword) : ofWord k.text = .keyword k := by
  cases k <;> rfl

theorem ofWord_of_ne {word : String} (h : ∀ k : Keyword, k.text ≠ word) :
    ofWord word = .identifier word := by
  unfold ofWord Keyword.ofText?
  rw [List.find?_eq_none.2 fun k _ => by simpa using h k]

/-- A keyword is made of the characters of names. -/
theorem exists_cons_of_keyword (k : Keyword) :
    ∃ c cs, k.text.toList = c :: cs ∧ isNameStart c = true ∧
      ∀ d ∈ cs, isNameChar d = true := by
  cases k <;> exact ⟨_, _, rfl, rfl, List.all_eq_true.1 rfl⟩

/-- Whether a token is a name, a keyword or a number, which must not run into the
next one. -/
def isWord : Token → Bool
  | .string _ | .mark _ => false
  | _ => true

/-- A text that denotes a token is read as this token in front of any other text,
if a word ends there. -/
theorem read_append_of_denotes {cs tail : List Char} {t : Token}
    (h : Denotes cs t) (ht : t.isWord = true → EndsWord tail) :
    ∃ c rest, cs = c :: rest ∧
      read c (rest ++ tail) = ⟨.token t, rest.length⟩ := by
  cases h with
  | keyword k =>
    obtain ⟨c, cs, hk, hc, hcs⟩ := exists_cons_of_keyword k
    refine ⟨c, cs, hk, ?_⟩
    rw [read_word hc hcs (ht rfl), ← hk, String.ofList_toList, ofWord_text]
  | @identifier c cs hc hcs hk =>
    refine ⟨c, cs, rfl, ?_⟩
    rw [read_word hc hcs (ht rfl), ofWord_of_ne]
    rintro k hw
    exact hk k (by rw [hw, String.toList_ofList])
  | integer hi hv => exact read_number (Number.ofNumber?_integer hi hv) (ht rfl)
  | decimal hi => exact read_number (Number.ofNumber?_decimal hi) (ht rfl)
  | @string body content hc =>
    refine ⟨'"', body ++ ['"'], rfl, ?_⟩
    change readString _ = _
    unfold readString
    rw [List.append_assoc, List.singleton_append, stringBody_content hc tail]
    simp
  | mark m => cases m <;> exact ⟨_, _, rfl, rfl⟩

/-- A text that denotes a token is read as this token. -/
theorem read_of_denotes {cs : List Char} {t : Token} (h : Denotes cs t) :
    ∃ c rest, cs = c :: rest ∧ read c rest = ⟨.token t, rest.length⟩ := by
  have hread := read_append_of_denotes h fun _ => endsWord_nil
  simpa only [List.append_nil] using hread

/-- A mark is spelled in one way. -/
theorem Denotes.text_of_mark {cs : List Char} {m : Mark}
    (h : Denotes cs (.mark m)) : cs = m.text.toList := by
  cases h
  rfl

/-- A text denotes at most one token. -/
theorem Denotes.unique {cs : List Char} {t t' : Token} (h : Denotes cs t)
    (h' : Denotes cs t') : t = t' := by
  -- reading is a function
  obtain ⟨c, rest, rfl, hr⟩ := read_of_denotes h
  obtain ⟨c', rest', he, hr'⟩ := read_of_denotes h'
  cases he
  rw [hr] at hr'
  cases hr'
  rfl

/-! ### What is read -/

theorem denotes_ofWord {c : Char} {cs : List Char} (hc : isNameStart c = true)
    (hcs : ∀ d ∈ cs, isNameChar d = true) :
    Denotes (c :: cs) (ofWord (String.ofList (c :: cs))) := by
  by_cases hk : ∃ k : Keyword, k.text.toList = c :: cs
  · obtain ⟨k, hk⟩ := hk
    rw [← hk, String.ofList_toList, ofWord_text]
    exact .keyword k
  · rw [ofWord_of_ne]
    · exact .identifier hc hcs fun k hw => hk ⟨k, hw⟩
    · rintro k hw
      exact hk ⟨k, by rw [hw, String.toList_ofList]⟩

theorem continuesName_dropWhile (cs : List Char) :
    continuesName (cs.dropWhile isNameChar) = false := by
  unfold continuesName
  have := List.head?_dropWhile_not isNameChar cs
  cases h : (cs.dropWhile isNameChar).head? with
  | none => rfl
  | some c =>
    rw [h] at this
    simpa using this

theorem denotes_of_readString {rest : List Char} {t : Token} {more : Nat}
    (h : readString rest = ⟨.token t, more⟩) :
    Denotes ('"' :: rest.take more) t ∧ t.isWord = false := by
  unfold readString at h
  dsimp only at h
  split at h
  · next he =>
    obtain ⟨body, tail, hs, hl, hc, hends⟩ := content_of_stringBody rest
    rw [he] at hends
    obtain ⟨tail, rfl⟩ := hends
    cases h
    have htake : rest.take ((stringBody rest).length + 1) = body ++ ['"'] := by
      rw [← hl, hs, List.take_length_add_append 1]
      rfl
    rw [htake]
    exact ⟨.string hc, rfl⟩
  · cases h
  · cases h

theorem denotes_of_readNumber {cs : List Char} {t : Token} {more : Nat}
    (hn : numberLength cs ≠ 0)
    (h : readNumber cs (numberLength cs) = ⟨.token t, more⟩) :
    Denotes (cs.take (more + 1)) t ∧ numberLength cs = more + 1 := by
  unfold readNumber at h
  split at h
  · next ht =>
    cases h
    have hmore : numberLength cs = numberLength cs - 1 + 1 := by omega
    obtain ⟨n, hchars⟩ := Number.exists_number hn
    rw [← hmore, hchars]
    rw [hchars] at ht
    refine ⟨?_, rfl⟩
    rcases Number.ofNumber?_eq_some ht with ⟨hi, value, hv, rfl⟩ | ⟨hi, rfl⟩
    · exact .integer hi hv
    · exact .decimal hi
  · cases h

theorem denotes_of_readMark {c : Char} {rest : List Char} {t : Token} {more : Nat}
    (h : readMark c rest = ⟨.token t, more⟩) :
    Denotes (c :: rest.take more) t ∧ t.isWord = false := by
  unfold readMark at h
  split at h
  · next ho =>
    obtain ⟨rfl, hr⟩ := ho
    obtain ⟨tail, rfl⟩ := List.head?_eq_some_iff.1 hr
    cases h
    exact ⟨.mark .recordOpen, rfl⟩
  · split at h
    · next hm =>
      cases h
      rw [List.take_zero, ← text_of_ofChar? hm]
      exact ⟨.mark _, rfl⟩
    · cases h

/-! ### The longest text -/

theorem length_le_of_word {c : Char} {cs tail : List Char} {t : Token}
    {more : Nat} (hc : isNameStart c = true)
    (hcs : ∀ d ∈ cs, isNameChar d = true)
    (h : read c (cs ++ tail) = ⟨.token t, more⟩) : cs.length ≤ more := by
  rw [read_of_isNameStart hc] at h
  cases h
  exact length_le_countWhile hcs tail

theorem length_le_of_number {c : Char} {rest tail : List Char} {n : Number}
    {t : Token} {more : Nat} (hs : n.chars ++ tail = c :: rest)
    (h : read c rest = ⟨.token t, more⟩) : n.chars.length ≤ more + 1 := by
  have hle := n.length_le_numberLength tail
  obtain ⟨d, cs, hcs, hd⟩ := n.exists_cons
  have hc : d = c := by
    rw [hcs] at hs
    exact (List.cons.inj hs).1
  rw [read_of_isDigit (hc ▸ hd)] at h
  rw [hs] at hle
  dsimp only at h
  split at h
  · next hn =>
    rw [Bool.and_eq_true, decide_eq_true_eq] at hn
    obtain ⟨-, hl⟩ := denotes_of_readNumber hn.1 h
    omega
  · cases h

/-- A text in front of what is read denotes nothing longer than the token that is
read. -/
theorem length_le_of_denotes {c : Char} {rest part : List Char} {t value : Token}
    {more : Nat} (h : read c rest = ⟨.token t, more⟩) (hd : Denotes part value)
    (hp : part <+: c :: rest) : part.length ≤ more + 1 := by
  obtain ⟨tail, hs⟩ := hp
  cases hd with
  | keyword k =>
    obtain ⟨d, cs, hk, hc, hcs⟩ := exists_cons_of_keyword k
    rw [hk] at hs ⊢
    cases hs
    exact Nat.succ_le_succ (length_le_of_word hc hcs h)
  | identifier hc hcs _ =>
    cases hs
    exact Nat.succ_le_succ (length_le_of_word hc hcs h)
  | integer | decimal => exact length_le_of_number hs h
  | @string body content hc =>
    rw [List.cons_append, List.append_assoc] at hs
    cases hs
    change readString (body ++ '"' :: tail) = _ at h
    unfold readString at h
    rw [stringBody_content hc tail] at h
    cases h
    simp
  | mark m =>
    cases m with
    | recordOpen =>
      cases hs
      change (⟨.token (.mark .recordOpen), 1⟩ : Reading) = _ at h
      cases h
      exact Nat.le_refl 2
    | _ => exact Nat.succ_le_succ (Nat.zero_le more)

/-- A token that is read is denoted by the text that it takes, and a word ends
where names do. -/
theorem denotes_of_read {c : Char} {rest : List Char} {t : Token} {more : Nat}
    (h : read c rest = ⟨.token t, more⟩) :
    Denotes (c :: rest.take more) t ∧
      (t.isWord = true → continuesName (rest.drop more) = false) := by
  have hword : ∀ {p : Prop}, t.isWord = false → t.isWord = true → p := by
    intro p hf ht
    rw [hf] at ht
    cases ht
  unfold read at h
  dsimp only at h
  split at h
  · cases h
  split at h
  · cases h
  split at h
  · next hq =>
    subst hq
    obtain ⟨hd, hw⟩ := denotes_of_readString h
    exact ⟨hd, hword hw⟩
  split at h
  · next hn =>
    rw [Bool.and_eq_true, decide_eq_true_eq, Bool.not_eq_true'] at hn
    obtain ⟨hd, hl⟩ := denotes_of_readNumber hn.1 h
    have hends := hn.2
    rw [hl] at hends
    exact ⟨hd, fun _ => hends⟩
  split at h
  · next hc =>
    cases h
    rw [take_countWhile]
    refine ⟨denotes_ofWord hc fun d hd => List.mem_takeWhile_imp hd, fun _ => ?_⟩
    rw [drop_countWhile]
    exact continuesName_dropWhile rest
  · obtain ⟨hd, hw⟩ := denotes_of_readMark h
    exact ⟨hd, hword hw⟩

/-- How a token stands in front of the rest of a text: it is denoted by its part,
by nothing longer from there on, and if it is a word, no character of names
follows it. -/
structure Stands (part after : List Char) (t : Token) : Prop where
  denotes : Denotes part t
  longest : ∀ more value, more <+: after → Denotes (part ++ more) value →
    more = []
  ends : t.isWord = true → continuesName after = false

theorem stands_of_read {c : Char} {rest : List Char} {t : Token} {more : Nat}
    (h : read c rest = ⟨.token t, more⟩) :
    Stands (c :: rest.take more) (rest.drop more) t where
  denotes := (denotes_of_read h).1
  longest longer value hp hd := by
    have hpre : (c :: rest.take more) ++ longer <+: c :: rest := by
      obtain ⟨tail, ht⟩ := hp
      refine ⟨tail, ?_⟩
      rw [List.append_assoc, ht, List.cons_append, List.take_append_drop]
    have hle := length_le_of_denotes h hd hpre
    have hrest := hp.length_le
    rw [List.length_append, List.length_cons, List.length_take] at hle
    rw [List.length_drop] at hrest
    exact List.eq_nil_of_length_eq_zero (by omega)
  ends := (denotes_of_read h).2

end ModelText.Token
