import ModelText.Proofs.Token.Tiling
import Mathlib.Data.List.Induction

/-!
# Tokens in writing are read back

`Token.text` writes a token in one of the spellings that denote it: a number in
decimal digits, a string between marks and with the escapes that keep it on one
line. So a text that is put together from such spellings, with blanks wherever
a word would go on else, is read as the tokens it was written for.

Decimals are left out. They are written without an exponent and without a point
if there are no digits behind it, and would be read as integers then.
-/

namespace ModelText.Token

open Decimal (digitsValue)

/-! ### Integers -/

theorem digits_natChars (n : Nat) : Digits (Text.natChars n) where
  ne_nil := Nat.toDigits_ne_nil
  digit _ hc := Nat.isDigit_of_mem_toDigits (by decide) (by decide) hc

theorem digitsValue_natChars (n : Nat) : digitsValue (Text.natChars n) = n :=
  Nat.ofDigitChars_ten_toDigits

theorem digitsValue_append (ds : List Char) (c : Char) :
    digitsValue (ds ++ [c]) = 10 * digitsValue ds + (c.toNat - '0'.toNat) := by
  unfold digitsValue
  rw [List.foldl_append]
  rfl

/-- A digit is written for its value. -/
theorem digitChar_toNat {c : Char} (h : c.isDigit = true) :
    c.toNat - '0'.toNat < 10 ∧ Nat.digitChar (c.toNat - '0'.toNat) = c := by
  have hle : '0'.toNat ≤ c.toNat ∧ c.toNat ≤ '9'.toNat := by
    rw [Char.isDigit, Bool.and_eq_true, decide_eq_true_eq,
      decide_eq_true_eq] at h
    exact h
  have hdigit : ∀ d < 10, Nat.digitChar d = Char.ofNat ('0'.toNat + d) := by
    decide
  have hlt : c.toNat - '0'.toNat < 10 := by
    have hnine : '9'.toNat = '0'.toNat + 9 := rfl
    omega
  refine ⟨hlt, ?_⟩
  rw [hdigit _ hlt, Nat.add_sub_cancel' hle.1, Char.ofNat_toNat]

/-- No zero is written in front of other digits. -/
theorem eq_zero_of_head?_natChars {n : Nat}
    (h : (Text.natChars n).head? = some '0') : n = 0 := by
  induction n using Nat.strongRecOn with
  | ind n ih =>
    unfold Text.natChars at h ih
    rw [Nat.toDigits_eq_if (by decide)] at h
    split at h
    · next hlt =>
      have hzero : ∀ d < 10, some (Nat.digitChar d) = some '0' → d = 0 := by
        decide
      exact hzero n hlt h
    · next hlt =>
      rw [List.head?_append_of_ne_nil _ Nat.toDigits_ne_nil] at h
      have := ih (n / 10) (by omega) h
      omega

/-- Digits that leave nothing out are the ones that their value is written
with. -/
theorem natChars_digitsValue {cs : List Char} (h : Digits cs)
    (hz : cs.head? = some '0' → cs = ['0']) :
    Text.natChars (digitsValue cs) = cs := by
  induction cs using List.reverseRecOn with
  | nil => exact absurd rfl h.ne_nil
  | append_singleton ds c ih =>
    obtain ⟨hlt, hc⟩ := digitChar_toNat (h.digit c (by simp))
    rw [digitsValue_append]
    by_cases hds : ds = []
    · subst hds
      have hsingle := Nat.toDigits_of_lt_base hlt
      rw [hc] at hsingle
      have hzero : 10 * digitsValue [] + (c.toNat - '0'.toNat) =
          c.toNat - '0'.toNat := Nat.zero_add _
      rw [hzero]
      exact hsingle
    · have hne : (ds ++ [c]).head? = some '0' → False := fun hh => by
        have hlen := congrArg List.length (hz hh)
        rw [List.length_append] at hlen
        exact hds (List.eq_nil_of_length_eq_zero (Nat.succ.inj hlen))
      rw [List.head?_append_of_ne_nil _ hds] at hne
      have hfirst := ih ⟨hds, fun d hd => h.digit d (List.mem_append_left _ hd)⟩
        fun hh => (hne hh).elim
      have hpos : 0 < digitsValue ds := by
        refine Nat.pos_of_ne_zero fun hzero => hne ?_
        rw [← hfirst, hzero]
        rfl
      have happend := Nat.toDigits_append_toDigits (by decide : 1 < 10) hpos hlt
      rw [Nat.toDigits_of_lt_base hlt, hc] at happend
      rw [Text.natChars, ← happend]
      exact congrArg (· ++ [c]) hfirst

namespace Number

/-- An integer as a written number. -/
def ofInt (i : Int) : Number where
  negative := decide (i < 0)
  whole := Text.natChars i.natAbs
  fraction := []
  power? := none
  isWhole := digits_natChars i.natAbs
  isFraction := nofun

theorem isInteger_ofInt (i : Int) : (ofInt i).IsInteger := ⟨rfl, rfl⟩

theorem chars_ofInt (i : Int) : (ofInt i).chars = Text.intChars i := by
  by_cases h : i < 0 <;>
    simp [chars, ofInt, sign, pointed, raised, Text.intChars, h]

theorem integer_ofInt (i : Int) : (ofInt i).integer = i := by
  unfold integer ofInt
  rw [digitsValue_natChars]
  by_cases h : i < 0
  · simp only [h, decide_true, if_true]
    omega
  · simp only [h, decide_false, Bool.false_eq_true, if_false]
    omega

/-- No digit of the number could be left out, nor its sign. -/
def IsPlain (n : Number) : Prop :=
  n.whole.head? = some '0' → n.whole = ['0'] ∧ n.negative = false

/-- An integer is written in one plain way. -/
theorem intChars_integer {n : Number} (h : n.IsInteger) :
    Text.intChars n.integer = n.chars ↔ n.IsPlain := by
  rw [chars_of_isInteger h, integer, IsPlain]
  cases n.negative with
  | false =>
    have hle : ¬((digitsValue n.whole : Int) < 0) := by omega
    simp only [Text.intChars, sign, Bool.false_eq_true, if_false, if_neg hle,
      Int.natAbs_natCast, List.nil_append, and_true]
    refine ⟨fun he hz => ?_, natChars_digitsValue n.isWhole⟩
    rw [← he] at hz ⊢
    rw [eq_zero_of_head?_natChars hz]
    rfl
  | true =>
    simp only [Text.intChars, sign, if_true, Bool.true_eq_false, and_false,
      Int.natAbs_neg, Int.natAbs_natCast, List.singleton_append]
    by_cases hv : digitsValue n.whole = 0
    · -- zero is written without a sign
      rw [hv]
      constructor
      · intro he
        cases he
      · intro hn
        have hzero := natChars_digitsValue n.isWhole fun hz => (hn hz).elim
        rw [hv] at hzero
        exact (hn (by rw [← hzero]; rfl)).elim
    · rw [if_pos (by omega), List.cons.injEq, and_iff_right rfl]
      refine ⟨fun he hz => hv ?_, fun hn => ?_⟩
      · rw [← he] at hz
        exact eq_zero_of_head?_natChars hz
      · exact natChars_digitsValue n.isWhole fun hz => (hn hz).elim

end Number

/-! ### Strings -/

theorem hexValue_append (digits : List Char) (c : Char) :
    hexValue (digits ++ [c]) = 16 * hexValue digits + hexDigitValue c := by
  unfold hexValue
  rw [List.foldl_append]
  rfl

theorem hexDigitValue_digitChar :
    ∀ d < 16, hexDigitValue (Nat.digitChar d) = d := by decide

theorem isHexDigit_digitChar :
    ∀ d < 16, isHexDigit (Nat.digitChar d) = true := by decide

/-- A number is the value of its hexadecimal digits. -/
theorem hexValue_toDigits (n : Nat) : hexValue (Nat.toDigits 16 n) = n := by
  induction n using Nat.strongRecOn with
  | ind n ih =>
    rw [Nat.toDigits_eq_if (by decide)]
    split
    · next h => exact (Nat.zero_add _).trans (hexDigitValue_digitChar n h)
    · next h =>
      rw [hexValue_append, ih (n / 16) (by omega),
        hexDigitValue_digitChar _ (Nat.mod_lt n (by decide))]
      exact Nat.div_add_mod n 16

theorem isHexDigit_of_mem_toDigits (n : Nat) :
    ∀ c ∈ Nat.toDigits 16 n, isHexDigit c = true := by
  induction n using Nat.strongRecOn with
  | ind n ih =>
    rw [Nat.toDigits_eq_if (by decide)]
    intro c hc
    split at hc
    · next h =>
      rw [List.mem_singleton.1 hc]
      exact isHexDigit_digitChar n h
    · next h =>
      rcases List.mem_append.1 hc with hc | hc
      · exact ih (n / 16) (by omega) c hc
      · rw [List.mem_singleton.1 hc]
        exact isHexDigit_digitChar _ (Nat.mod_lt n (by decide))

theorem charOfNumber?_toNat (c : Char) : charOfNumber? c.toNat = some c := by
  have hvalid : c.toNat.isValidChar := c.valid
  rw [charOfNumber?, if_pos hvalid, Char.ofNat_toNat]

/-- Six hexadecimal digits are enough for a character. -/
theorem length_toDigits_toNat_le (c : Char) :
    (Nat.toDigits 16 c.toNat).length ≤ 6 := by
  rw [Nat.length_toDigits_le_iff (by decide) (by decide)]
  have hvalid : c.toNat < 0xd800 ∨ 0xdfff < c.toNat ∧ c.toNat < 0x110000 :=
    c.valid
  omega

theorem escaped_toNat (c : Char) :
    Escaped ('u' :: '{' :: (Nat.toDigits 16 c.toNat ++ ['}'])) c := by
  refine .number Nat.toDigits_ne_nil (length_toDigits_toNat_le c)
    (isHexDigit_of_mem_toDigits c.toNat) ?_
  rw [hexValue_toDigits, charOfNumber?_toNat]

/-- A quoted character stands for itself in the content of a string. -/
theorem content_quotedChar (c : Char) {body content : List Char}
    (h : Content body content) :
    Content (Text.quotedChar c ++ body) (c :: content) := by
  unfold Text.quotedChar
  -- six characters are written with a letter
  iterate 6
    split
    · next hc =>
      subst hc
      exact .escape (.letter rfl) h
  split
  · next hq hb hn hr _ _ _ => exact .plain hq hb hn hr h
  · exact .escape (escaped_toNat c) h

theorem content_quoted (s : List Char) :
    Content (s.flatMap Text.quotedChar) s := by
  induction s with
  | nil => exact .nil
  | cons c rest ih => exact content_quotedChar c ih

/-! ### Tokens -/

/-- A text that is a name: letters, digits and underscores, a digit not first,
and no keyword. -/
structure IsName (name : String) : Prop where
  start : ∃ c ∈ name.toList.head?, isNameStart c = true
  nameChar : ∀ c ∈ name.toList, isNameChar c = true
  ne_keyword : ∀ k : Keyword, k.text ≠ name

instance (name : String) : Decidable (IsName name) :=
  decidable_of_iff (name.toList.head?.any isNameStart = true ∧
      name.toList.all isNameChar = true ∧ ∀ k ∈ Keyword.all, k.text ≠ name) <| by
    constructor
    · rintro ⟨hstart, hchar, hk⟩
      refine ⟨?_, List.all_eq_true.1 hchar, fun k => hk k ?_⟩
      · cases hn : name.toList.head? with
        | none => simp [hn] at hstart
        | some c => exact ⟨c, rfl, by simpa [hn] using hstart⟩
      · cases k <;> decide
    · rintro ⟨⟨c, hc, hstart⟩, hchar, hk⟩
      refine ⟨?_, List.all_eq_true.2 hchar, fun k _ => hk k⟩
      rw [Option.mem_def.1 hc]
      exact hstart

theorem isNameChar_of_isNameStart {c : Char} (h : isNameStart c = true) :
    isNameChar c = true := by
  rw [isNameStart, Bool.or_eq_true] at h
  rw [isNameChar, Char.isAlphanum, Bool.or_eq_true, Bool.or_eq_true]
  exact h.imp_left .inl

theorem IsName.denotes {name : String} (h : IsName name) :
    Denotes name.toList (.identifier name) := by
  obtain ⟨c, hc, hstart⟩ := h.start
  obtain ⟨rest, hname⟩ := List.head?_eq_some_iff.1 hc
  have hd : Denotes (c :: rest) (.identifier (String.ofList (c :: rest))) := by
    refine .identifier hstart (fun d hd => ?_) fun k hk => ?_
    · exact h.nameChar d (hname ▸ List.mem_cons_of_mem c hd)
    · exact h.ne_keyword k (String.toList_injective (hk.trans hname.symm))
  rwa [← hname, String.ofList_toList] at hd

/-- The tokens that can stand in a text: a name must be one. -/
def IsNamed : Token → Prop
  | .identifier name => IsName name
  | _ => True

theorem isNamed_of_denotes {cs : List Char} {t : Token} (h : Denotes cs t) :
    t.IsNamed := by
  cases h with
  | @identifier c rest hc hrest hk =>
    refine ⟨⟨c, ?_, hc⟩, ?_, fun k hw => hk k ?_⟩
    · rw [String.toList_ofList]
      rfl
    · rw [String.toList_ofList]
      intro d hd
      rcases List.mem_cons.1 hd with rfl | hd
      · exact isNameChar_of_isNameStart hc
      · exact hrest d hd
    · rw [hw, String.toList_ofList]
  | _ => trivial

theorem isNamed_of_scan {source : String} {tokens : List (Spanned Token)}
    (h : scan source = .ok tokens) : ∀ t ∈ tokens, t.value.IsNamed := by
  intro t hm
  obtain ⟨front, part, after, _, _, _, hs⟩ := (tiled_of_scan h).stands t hm
  exact isNamed_of_denotes hs.denotes

/-- The tokens that are written exactly: all but decimals. -/
def IsExact (t : Token) : Prop :=
  t.IsNamed ∧ ∀ value, t ≠ .decimal value

/-- A token is denoted by its text. -/
theorem denotes_text {t : Token} (h : t.IsExact) : Denotes t.text.toList t := by
  cases t with
  | keyword k => exact .keyword k
  | identifier name => exact IsName.denotes h.1
  | integer value =>
    have hd := Denotes.integer (Number.isInteger_ofInt value.toInt)
      (Number.integer_ofInt value.toInt).symm
    rw [Number.chars_ofInt] at hd
    simpa only [text, Text.ofInt, String.toList_ofList] using hd
  | decimal value => exact absurd rfl (h.2 value)
  | string content =>
    have hd := Denotes.string (content_quoted content.toList)
    rw [String.ofList_toList] at hd
    simpa only [text, Text.quoted, Text.quotedChars, String.toList_ofList]
      using hd
  | mark m => exact .mark m

/-! ### Texts -/

/-- A text is written for tokens: one behind another, with blanks anywhere, and
no word goes on behind its end. -/
inductive Spells : List Char → List Token → Prop
  | nil : Spells [] []
  | blank {c : Char} {cs : List Char} {ts : List Token} :
    isBlank c = true → Spells cs ts → Spells (c :: cs) ts
  | token {part cs : List Char} {t : Token} {ts : List Token} :
    Denotes part t → (t.isWord = true → EndsWord cs) → Spells cs ts →
    Spells (part ++ cs) (t :: ts)

theorem Spells.space {cs : List Char} {ts : List Token} (h : Spells cs ts) :
    Spells (' ' :: cs) ts :=
  .blank rfl h

theorem endsWord_space (cs : List Char) : EndsWord (' ' :: cs) :=
  endsWord_cons.2 rfl

/-- Of a text that is written for tokens these are found, and nothing else. -/
theorem findings_of_spells {cs : List Char} {ts : List Token}
    (h : Spells cs ts) (offset : Nat) :
    errorsOf (findings offset cs) = [] ∧
      (tokensOf (findings offset cs)).map (·.value) = ts := by
  induction h generalizing offset with
  | nil => rw [findings_nil]; exact ⟨rfl, rfl⟩
  | blank hc _ ih =>
    rw [findings_blank hc]
    exact ih _
  | @token part cs t ts hd ht _ ih =>
    obtain ⟨c, rest, rfl, hread⟩ := read_append_of_denotes hd ht
    rw [List.cons_append, findings_cons hread, List.drop_left]
    obtain ⟨herrors, htokens⟩ := ih (offset + byteLength
      (c :: (rest ++ cs).take rest.length))
    exact ⟨herrors, congrArg (t :: ·) htokens⟩

theorem scan_of_spells {source : String} {ts : List Token}
    (h : Spells source.toList ts) :
    ∃ tokens, scan source = .ok tokens ∧ tokens.map (·.value) = ts := by
  obtain ⟨herrors, htokens⟩ := findings_of_spells h 0
  refine ⟨tokensOf (lexemes source), ?_, ?_⟩
  · unfold scan
    dsimp only
    rw [errorsOf_lexemes, herrors]
    rfl
  · rw [tokensOf_lexemes, htokens]

/-- Tokens that are written exactly are spelled by their texts with a blank
between any two of them. -/
theorem spells_intercalate {ts : List Token} (h : ∀ t ∈ ts, t.IsExact) :
    Spells (" ".intercalate (ts.map text)).toList ts := by
  induction ts with
  | nil => exact .nil
  | cons t rest ih =>
    have ht := denotes_text (h t List.mem_cons_self)
    have hrest := ih fun u hu => h u (List.mem_cons_of_mem t hu)
    cases rest with
    | nil =>
      have hone := Spells.token ht (fun _ => endsWord_nil) .nil
      simpa using hone
    | cons u rest =>
      have hmore := Spells.token ht (fun _ => endsWord_space _) hrest.space
      rw [List.map_cons, List.map_cons, String.intercalate_cons_cons,
        String.toList_append, String.toList_append, List.append_assoc]
      exact hmore

/-- **Tokens that are written one behind another are read back.** -/
theorem tokenize_intercalate_text {tokens : List Token}
    (h : ∀ t ∈ tokens, t.IsExact) :
    (tokenize (" ".intercalate (tokens.map text))).map (·.map (·.value)) =
      .ok tokens := by
  obtain ⟨found, hok, hvalues⟩ := scan_of_spells (spells_intercalate h)
  rw [tokenize, hok, ← hvalues]
  rfl

/-- A negative number, a string with characters that are escaped, and words that
would be another word without the blank between them. -/
theorem tokenize_intercalate_text_mixed :
    let tokens : List Token := [.identifier "a", .keyword .trueWord,
      .integer Int64.minValue, .string "it's \"\\\x07\u0301é\n", .mark .dot,
      .mark .recordOpen, .integer 7]
    (∀ t ∈ tokens, t.IsExact) ∧
      (tokenize (" ".intercalate (tokens.map text))).map (·.map (·.value)) =
        .ok tokens := by
  intro tokens
  have ha : IsName "a" := by decide
  have h : ∀ t ∈ tokens, t.IsExact := by
    simp [tokens, IsExact, IsNamed, ha]
  exact ⟨h, tokenize_intercalate_text h⟩

end ModelText.Token
