import ModelText.Proofs.Token.Tiling

/-!
# What becomes of every character

A text with faults is read to its end, and every character of it is in one
piece: blanks, a comment, a token, or something that is refused. `Refused` tells
what is refused and how much of it the fault is found at. In front of an escape
that is refused stand the mark and the content of its string, which the fault
leaves out; and behind an escape or a number one character is passed over.

So most characters of a text are accounted for, and those that are not are known
by what stands before them.
-/

namespace ModelText.Token

/-! ### What is refused -/

/-- What is refused for a fault, in three parts: what stands in front of the
fault, what it is found at, and what is passed over behind it. -/
inductive Refused :
    LexicalFault → List Char → List Char → List Char → Prop
  | unexpectedCharacter (c : Char) : Refused .unexpectedCharacter [] [c] []
  | unterminatedString {body content passed : List Char} :
    Content body content → (∀ c ∈ passed, isBlank c = true) →
    Refused .unterminatedString [] ('"' :: body) passed
  | invalidEscape {body content escaped passed : List Char} :
    Content body content → passed.length ≤ 1 →
    Refused .invalidEscape ('"' :: body) ('\\' :: escaped) passed
  | numberOutOfRange {n : Number} {passed : List Char} : n.IsInteger →
    (∀ value : Int64, value.toInt ≠ n.integer) → passed.length ≤ 1 →
    Refused .numberOutOfRange [] n.chars passed

theorem isBlank_of_break {c : Char} (h : c = '\n' ∨ c = '\r') :
    isBlank c = true := by
  rcases h with rfl | rfl <;> rfl

/-- Where a string is refused, a line or the text ends in it, or an escape is
wrong. -/
theorem refused_of_readString {rest : List Char} {fault : LexicalFault}
    {start stop more : Nat}
    (h : readString rest = ⟨.fault fault start stop, more⟩) :
    ∃ front told passed, '"' :: rest.take more = front ++ (told ++ passed) ∧
      start = front.length ∧ stop = (front ++ told).length ∧
      fault ≠ .unexpectedCharacter ∧ Refused fault front told passed := by
  obtain ⟨body, tail, hs, hl, hc, hends⟩ := content_of_stringBody rest
  unfold readString at h
  dsimp only at h
  rw [← hl] at h
  split at h
  · cases h
  · next he =>
    rw [he] at hends
    cases h
    refine ⟨[], '"' :: body, tail.take 1, ?_, rfl, rfl, nofun,
      .unterminatedString hc fun c hm => ?_⟩
    · rw [hs, List.take_length_add_append]
      rfl
    · cases tail with
      | nil => cases hm
      | cons d tail =>
        rw [List.mem_singleton.1 hm]
        exact isBlank_of_break (hends d rfl)
  · next length he =>
    rw [he] at hends
    obtain ⟨escaped, rfl, hx⟩ := hends
    have hle : length ≤ escaped.length := by
      have hescape := escape_le escaped
      rwa [hx] at hescape
    cases h
    have htake : rest.take (body.length + 2 + length) =
        body ++ ('\\' :: escaped.take length ++ (escaped.drop length).take 1) := by
      rw [hs, Nat.add_assoc, List.take_length_add_append, Nat.add_comm 2,
        List.take_succ_cons, List.cons_append, ← List.take_add]
    refine ⟨'"' :: body, '\\' :: escaped.take length,
      (escaped.drop length).take 1, ?_, rfl, ?_, nofun,
      .invalidEscape hc (List.length_take_le 1 _)⟩
    · rw [htake]
      rfl
    · simp only [List.length_cons, List.length_append, List.length_take]
      omega

theorem refused_of_readNumber {c : Char} {rest : List Char}
    {fault : LexicalFault} {start stop more : Nat}
    (hn : numberLength (c :: rest) ≠ 0)
    (h : readNumber (c :: rest) (numberLength (c :: rest)) =
      ⟨.fault fault start stop, more⟩) :
    ∃ told passed, c :: rest.take more = told ++ passed ∧
      start = 0 ∧ stop = told.length ∧
      fault ≠ .unexpectedCharacter ∧ Refused fault [] told passed := by
  obtain ⟨n, hchars⟩ := Number.exists_number hn
  unfold readNumber at h
  rw [hchars] at h
  split at h
  · cases h
  · next hnone =>
    cases h
    have hi : n.IsInteger := by
      by_contra hi
      rw [Number.ofNumber?_decimal hi] at hnone
      cases hnone
    refine ⟨n.chars, _, ?_, rfl, ?_, nofun,
      .numberOutOfRange hi (fun value hv => ?_) (List.length_take_le 1 ((c :: rest).drop (numberLength (c :: rest))))⟩
    · rw [← hchars, ← List.take_add, List.take_succ_cons]
    · rw [← hchars, List.length_take]
      exact (Nat.min_eq_left (numberLength_le _)).symm
    · rw [Number.ofNumber?_integer hi hv] at hnone
      cases hnone

/-- Every fault is found at something that is refused. -/
theorem refused_of_read {c : Char} {rest : List Char} {fault : LexicalFault}
    {start stop more : Nat} (h : read c rest = ⟨.fault fault start stop, more⟩) :
    ∃ front told passed, c :: rest.take more = front ++ (told ++ passed) ∧
      start = front.length ∧
      (stop = if fault = .unexpectedCharacter then 0
        else (front ++ told).length) ∧
      Refused fault front told passed := by
  unfold read at h
  dsimp only at h
  split at h
  · cases h
  split at h
  · cases h
  split at h
  · next hc =>
    subst hc
    obtain ⟨front, told, passed, hs, hstart, hstop, hf, hr⟩ :=
      refused_of_readString h
    exact ⟨front, told, passed, hs, hstart, by rw [if_neg hf, hstop], hr⟩
  split at h
  · next hn =>
    rw [Bool.and_eq_true, decide_eq_true_eq] at hn
    obtain ⟨told, passed, hs, hstart, hstop, hf, hr⟩ :=
      refused_of_readNumber hn.1 h
    exact ⟨[], told, passed, hs, hstart, by rw [if_neg hf, hstop]; rfl, hr⟩
  split at h
  · cases h
  · unfold readMark at h
    split at h
    · cases h
    · split at h
      · cases h
      · cases h
        exact ⟨[], [c], [], rfl, rfl, rfl, .unexpectedCharacter c⟩

/-! ### Characters in pieces -/

/-- A character of a text in two parts is in one of them. -/
theorem mem_part_of_append {xs ys before after : List Char} {c : Char}
    (h : xs ++ ys = before ++ c :: after) :
    (∃ right, xs = before ++ c :: right) ∨
      ∃ left, before = xs ++ left ∧ ys = left ++ c :: after := by
  rcases List.append_eq_append_iff.1 h with ⟨left, hb, hy⟩ | ⟨more, hx, hm⟩
  · exact .inr ⟨left, hb, hy⟩
  · cases more with
    | nil => exact .inr ⟨[], by simpa using hx.symm, hm.symm⟩
    | cons d more =>
      cases (List.cons.inj hm).1
      exact .inl ⟨more, hx⟩

/-- Every character is in a piece. -/
theorem exists_cut {pieces : List Cut} {before after : List Char} {c : Char}
    (h : pieces.flatMap Cut.chars = before ++ c :: after) :
    ∃ first cut last left right, pieces = first ++ cut :: last ∧
      cut.chars = left ++ c :: right ∧
      before = first.flatMap Cut.chars ++ left := by
  induction pieces generalizing before with
  | nil => simp at h
  | cons cut rest ih =>
    rcases mem_part_of_append h with ⟨right, hc⟩ | ⟨left, hb, hr⟩
    · exact ⟨[], cut, rest, before, right, rfl, hc, rfl⟩
    · obtain ⟨first, cut', last, left, right, rfl, hc, rfl⟩ := ih hr
      refine ⟨cut :: first, cut', last, left, right, rfl, hc, ?_⟩
      rw [hb, List.flatMap_cons, List.append_assoc]

theorem place_append (offset : Nat) (first last : List Cut) :
    place offset (first ++ last) = place offset first ++
      place (offset + byteLength (first.flatMap Cut.chars)) last := by
  induction first generalizing offset with
  | nil => rfl
  | cons cut first ih =>
    rw [List.cons_append, place, place, ih, List.flatMap_cons,
      byteLength_append, Nat.add_assoc]
    rfl

/-- A piece of a text stands behind the characters of those before it. -/
theorem lexeme_mem_lexemes {source : String} {first last : List Cut} {cut : Cut}
    (h : cuts source.toList = first ++ cut :: last) :
    cut.lexeme (byteLength (first.flatMap Cut.chars)) ∈ lexemes source := by
  rw [lexemes, h, place_append, Nat.zero_add]
  exact List.mem_append_right _ List.mem_cons_self

/-! ### Accounts -/

/-- A diagnostic of the text is about a fault, from one byte up to another. -/
def Tells (source : String) (fault : LexicalFault) (start stop : Nat) : Prop :=
  ∃ d ∈ diagnostics source, ∃ span, d.primarySpan? = some span ∧
    d.message = fault.message ∧ span.start = start ∧ span.stop = stop

/-- What is known of a character behind a part of the text. -/
inductive Accounted (source : String) (before : List Char) (c : Char) : Prop
  | blank : isBlank c = true → Accounted source before c
  /-- It is in a piece that is a comment. -/
  | comment {first last : List Cut} {words left right : List Char} :
    cuts source.toList = first ++ ⟨.blank, '/' :: '/' :: words⟩ :: last →
    '\n' ∉ words → '/' :: '/' :: words = left ++ c :: right →
    before = first.flatMap Cut.chars ++ left → Accounted source before c
  | token {t : Spanned Token} : t ∈ tokensOf (lexemes source) →
    t.span.start ≤ byteLength before →
    byteLength before + c.utf8Size ≤ t.span.stop → Accounted source before c
  /-- A diagnostic points at it. -/
  | told {fault : LexicalFault} {start stop : Nat} :
    Tells source fault start stop → start ≤ byteLength before →
    byteLength before < stop → Accounted source before c

/-- Something is refused in a text, and it is told where the fault is found. -/
structure RefusedAt (source : String) (fault : LexicalFault)
    (before front told passed after : List Char) : Prop where
  text : source.toList = before ++ ((front ++ (told ++ passed)) ++ after)
  refused : Refused fault front told passed
  tells : Tells source fault (byteLength (before ++ front))
    (byteLength (before ++ front) +
      if fault = .unexpectedCharacter then 1 else byteLength told)

/-- It is in a string that is broken off at an escape, in front of what is told
of the escape or right behind it. -/
def InBrokenString (source : String) (before : List Char) (c : Char) : Prop :=
  ∃ first body escaped passed after,
    RefusedAt source .invalidEscape first ('"' :: body) ('\\' :: escaped) passed
        after ∧
      ((∃ left right, '"' :: body = left ++ c :: right ∧ before = first ++ left) ∨
        passed = [c] ∧ before = first ++ ('"' :: body ++ '\\' :: escaped))

/-- It is right behind a number for which there is no room. -/
def BehindNumber (source : String) (before : List Char) (c : Char) : Prop :=
  ∃ first number after,
    RefusedAt source .numberOutOfRange first [] number [c] after ∧
      before = first ++ number

section

variable {source : String} {first last : List Cut} {chars : List Char}

theorem token_mem_of_cuts {t : Token}
    (h : cuts source.toList = first ++ ⟨.token t, chars⟩ :: last) :
    ⟨t, Span.between (byteLength (first.flatMap Cut.chars))
      (byteLength (first.flatMap Cut.chars) + byteLength chars)⟩ ∈
        tokensOf (lexemes source) :=
  List.mem_filterMap.2 ⟨_, lexeme_mem_lexemes h, rfl⟩

theorem tells_of_cuts {fault : LexicalFault} {start stop : Nat}
    (h : cuts source.toList = first ++ ⟨.fault fault start stop, chars⟩ :: last) :
    Tells source fault
      (byteLength (first.flatMap Cut.chars) + byteLength (chars.take start))
      (max (byteLength (first.flatMap Cut.chars) + byteLength (chars.take stop))
        (byteLength (first.flatMap Cut.chars) + byteLength (chars.take start) +
          1)) := by
  have he : ⟨fault, faultSpan (byteLength (first.flatMap Cut.chars)) chars start
      stop⟩ ∈ errorsOf (lexemes source) :=
    List.mem_filterMap.2 ⟨_, lexeme_mem_lexemes h, rfl⟩
  refine ⟨_, List.mem_map.2 ⟨_, he, rfl⟩, _, rfl, rfl, rfl, ?_⟩
  exact Nat.max_eq_right (Nat.le_trans (Nat.le_succ _) (Nat.le_max_right _ _))

end

theorem Refused.told_ne_nil {fault : LexicalFault}
    {front told passed : List Char} (h : Refused fault front told passed) :
    told ≠ [] := by
  cases h with
  | @numberOutOfRange n =>
    obtain ⟨c, rest, hn, -⟩ := n.exists_cons
    exact hn ▸ List.cons_ne_nil c rest
  | _ => exact List.cons_ne_nil _ _

/-- A piece that is a fault is refused at its place. -/
theorem refusedAt_of_cuts {source : String} {first last : List Cut}
    {chars : List Char} {fault : LexicalFault} {start stop : Nat}
    (h : cuts source.toList = first ++ ⟨.fault fault start stop, chars⟩ :: last) :
    ∃ front told passed, chars = front ++ (told ++ passed) ∧
      RefusedAt source fault (first.flatMap Cut.chars) front told passed
        (last.flatMap Cut.chars) := by
  obtain ⟨c, rest, more, hread, hchars⟩ :=
    mem_cuts (h ▸ List.mem_append_right first List.mem_cons_self)
  obtain ⟨front, told, passed, hs, rfl, hstop, hr⟩ := refused_of_read hread
  have hparts : chars = front ++ (told ++ passed) := hchars.trans hs
  refine ⟨front, told, passed, hparts, ?_, hr, ?_⟩
  · rw [← flatMap_cuts source.toList, h, List.flatMap_append, List.flatMap_cons,
      ← hparts]
  · have htells := tells_of_cuts h
    have hpos := byteLength_pos hr.told_ne_nil
    rw [hparts, List.take_left, ← byteLength_append] at htells
    split at hstop
    · next hf =>
      rw [hstop] at htells
      rw [if_pos hf]
      convert htells using 1
      rw [List.take_zero, byteLength_append]
      simp only [byteLength_nil]
      omega
    · next hf =>
      rw [hstop, ← List.append_assoc, List.take_left] at htells
      rw [if_neg hf]
      convert htells using 1
      simp only [byteLength_append]
      omega

/-! The pieces in turn -/

section

variable {source : String} {first last : List Cut}
  {chars left right : List Char} {c : Char}

theorem accounted_of_blank
    (h : cuts source.toList = first ++ ⟨.blank, chars⟩ :: last)
    (hc : chars = left ++ c :: right) :
    Accounted source (first.flatMap Cut.chars ++ left) c := by
  obtain ⟨d, rest, more, hread, hchars⟩ :=
    mem_cuts (h ▸ List.mem_append_right first List.mem_cons_self)
  have hchars : chars = d :: rest.take more := hchars
  rcases blank_cases hread with ⟨hd, htake⟩ | ⟨rfl, tail, -, htake, -⟩
  · have hall : ∀ b ∈ chars, isBlank b = true := by
      rw [hchars, htake]
      rintro b (_ | ⟨_, hb⟩)
      · exact hd
      · exact List.mem_takeWhile_imp hb
    exact .blank (hall c (hc ▸ List.mem_append_right left List.mem_cons_self))
  · rw [htake] at hchars
    rw [hchars] at h hc
    exact .comment h (not_mem_takeWhile_ne '\n' tail) hc rfl

theorem accounted_of_token {t : Token}
    (h : cuts source.toList = first ++ ⟨.token t, chars⟩ :: last)
    (hc : chars = left ++ c :: right) :
    Accounted source (first.flatMap Cut.chars ++ left) c := by
  refine .token (token_mem_of_cuts h) ?_ ?_
  · rw [byteLength_append]
    exact Nat.le_add_right _ _
  · rw [Span.stop_between, hc, byteLength_append, byteLength_append,
      byteLength_cons]
    omega

/-- What is told of a fault accounts for the characters that it is found at. -/
theorem accounted_of_told {fault : LexicalFault}
    {before front told passed after : List Char}
    (h : RefusedAt source fault before front told passed after)
    (hc : told = left ++ c :: right) :
    Accounted source (before ++ (front ++ left)) c := by
  have hpos := c.utf8Size_pos
  refine .told h.tells ?_ ?_
  · rw [← List.append_assoc, byteLength_append (before ++ front)]
    exact Nat.le_add_right _ _
  · rw [← List.append_assoc, byteLength_append (before ++ front)]
    split
    · next hf =>
      -- a character that begins nothing is alone
      have hr := h.refused
      rw [hf] at hr
      cases hr with
      | unexpectedCharacter d =>
        cases left with
        | nil => exact Nat.lt_succ_self _
        | cons b left => simp at hc
    · rw [hc, byteLength_append left, byteLength_cons]
      omega

theorem eq_nil_of_length_le_one {passed : List Char}
    (h : passed = left ++ c :: right) (hle : passed.length ≤ 1) :
    left = [] ∧ passed = [c] := by
  rw [h, List.length_append, List.length_cons] at hle
  have hleft : left = [] := List.eq_nil_of_length_eq_zero (by omega)
  have hright : right = [] := List.eq_nil_of_length_eq_zero (by omega)
  exact ⟨hleft, by rw [h, hleft, hright]; rfl⟩

theorem accounted_of_fault {fault : LexicalFault} {start stop : Nat}
    (h : cuts source.toList = first ++ ⟨.fault fault start stop, chars⟩ :: last)
    (hc : chars = left ++ c :: right) :
    Accounted source (first.flatMap Cut.chars ++ left) c ∨
      InBrokenString source (first.flatMap Cut.chars ++ left) c ∨
      BehindNumber source (first.flatMap Cut.chars ++ left) c := by
  obtain ⟨front, told, passed, hparts, hat⟩ := refusedAt_of_cuts h
  have hr := hat.refused
  rcases mem_part_of_append (hparts.symm.trans hc) with
    ⟨more, hfront⟩ | ⟨more, rfl, hmore⟩
  · -- only an escape has something in front of it
    cases hr with
    | invalidEscape =>
      exact .inr (.inl ⟨_, _, _, _, _, hat, .inl ⟨left, more, hfront, rfl⟩⟩)
    | _ => simp at hfront
  rcases mem_part_of_append hmore with ⟨more', htold⟩ | ⟨more', rfl, hpassed⟩
  · exact .inl (accounted_of_told hat htold)
  · cases hr with
    | unexpectedCharacter => simp at hpassed
    | unterminatedString _ hblank =>
      refine .inl (.blank (hblank c ?_))
      exact hpassed ▸ List.mem_append_right more' List.mem_cons_self
    | invalidEscape _ hle =>
      obtain ⟨rfl, hone⟩ := eq_nil_of_length_le_one hpassed hle
      refine .inr (.inl ⟨_, _, _, _, _, hat, .inr ⟨hone, ?_⟩⟩)
      rw [List.append_nil]
    | numberOutOfRange _ _ hle =>
      obtain ⟨rfl, rfl⟩ := eq_nil_of_length_le_one hpassed hle
      refine .inr (.inr ⟨_, _, _, hat, ?_⟩)
      rw [List.append_nil, List.nil_append]

end

/-- **Every character is accounted for, up to two faults.** A character of a text
is a blank, in a comment, in a token, or where a diagnostic points at; or it
belongs to a string that is broken off at an escape, and stands in front of what
is told of the escape or right behind it; or it stands right behind a number for
which there is no room. -/
theorem accounted_of_mem {source : String} {before after : List Char} {c : Char}
    (h : source.toList = before ++ c :: after) :
    Accounted source before c ∨ InBrokenString source before c ∨
      BehindNumber source before c := by
  obtain ⟨first, ⟨piece, chars⟩, last, left, right, hcuts, hc, rfl⟩ :=
    exists_cut ((flatMap_cuts source.toList).trans h)
  cases piece with
  | blank => exact .inl (accounted_of_blank hcuts hc)
  | token t => exact .inl (accounted_of_token hcuts hc)
  | fault fault start stop => exact accounted_of_fault hcuts hc

/-- A text that begins as a string, and goes on with a wrong escape. -/
theorem accounted_of_mem_escape :
    "\"a\\q\" é".toList = ['"', 'a', '\\'] ++ 'q' :: ['"', ' ', 'é'] ∧
      (Accounted "\"a\\q\" é" ['"', 'a', '\\'] 'q' ∨
        InBrokenString "\"a\\q\" é" ['"', 'a', '\\'] 'q' ∨
          BehindNumber "\"a\\q\" é" ['"', 'a', '\\'] 'q') :=
  ⟨rfl, accounted_of_mem rfl⟩

/-! ### Characters that are not accounted for -/

/-- What is found in a text is an error, and somewhere else than at an offset. -/
def Lexeme.misses (offset : Nat) : Lexeme → Bool
  | .error e => offset < e.span.start || e.span.stop ≤ offset
  | .blank | .token _ => false

/-- Of a character nothing is known where only errors are found, and these
somewhere else. -/
theorem not_accounted {source : String} {before : List Char} {c : Char}
    (hc : isBlank c = false)
    (h : (lexemes source).all (·.misses (byteLength before)) = true) :
    ¬Accounted source before c := by
  have hmisses := List.all_eq_true.1 h
  rintro (hb | ⟨hcuts, -, -, -⟩ | ⟨ht, -, -⟩ | ⟨ht, hstart, hstop⟩)
  · rw [hc] at hb
    cases hb
  · cases hmisses _ (lexeme_mem_lexemes hcuts)
  · obtain ⟨lexeme, hl, ht⟩ := List.mem_filterMap.1 ht
    cases lexeme with
    | token t => cases hmisses _ hl
    | blank | error => cases ht
  · obtain ⟨d, hd, span, hspan, -, rfl, rfl⟩ := ht
    obtain ⟨e, he, rfl⟩ := List.mem_map.1 hd
    obtain ⟨lexeme, hl, he⟩ := List.mem_filterMap.1 he
    cases lexeme with
    | error e' =>
      cases he
      obtain rfl : e.span = span := Option.some.inj hspan
      have hm := hmisses _ hl
      simp only [Lexeme.misses, Bool.or_eq_true, decide_eq_true_eq] at hm
      omega
    | blank | token => cases he

/-- The content of a string in front of a wrong escape, and what stands right
behind a number for which there is no room. -/
theorem not_accounted_everywhere :
    (∃ told, tokenize "\"a\\q" = .error told ∧ ¬Accounted "\"a\\q" ['"'] 'a') ∧
      ∃ told, tokenize "99999999999999999999@" = .error told ∧
        ¬Accounted "99999999999999999999@" (List.replicate 20 '9') '@' := by
  have herror {source : String} (h : (diagnostics source).isEmpty = false) :
      ∃ told, tokenize source = .error told := by
    refine ⟨diagnostics source, ?_⟩
    rw [tokenize_eq, h]
    rfl
  obtain ⟨told, ht⟩ := @herror "\"a\\q" (by decide +kernel)
  obtain ⟨told', ht'⟩ := @herror "99999999999999999999@" (by decide +kernel)
  exact ⟨⟨told, ht, not_accounted rfl (by decide +kernel)⟩, told', ht',
    not_accounted rfl (by decide +kernel)⟩

end ModelText.Token
