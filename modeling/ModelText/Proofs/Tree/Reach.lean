import ModelText.Proofs.Tree.Reading

/-!
# How far each step of the parser gets

One equation for each step and each way in which it can begin. It says how far
the step gets, and leaves out what was read and what is told of a token that
does not fit. What a step does behind the token that it began with is written as
a chain of the steps that follow.
-/

namespace ModelText

namespace Parser

open Tokens (next? next?_eq_some)

variable {α β : Type} {ts ts' rest : Tokens}

/-- The tokens that a step leaves, or those from the first one that does not
fit. -/
def reach (result : ParseResult α ts) : Except Tokens Tokens :=
  match result with
  | .ok p => .ok p.rest
  | .error e => .error e.rest

@[simp] theorem reach_ok (p : Parsed α ts) : reach (.ok p) = .ok p.rest := rfl

@[simp] theorem reach_fail (expected : Expectation)
    (within : Option Expectation) :
    reach (fail expected within rest : ParseResult α ts) = .error rest := rfl

theorem reach_bind {step : ParseResult α ts}
    {next : Parsed α ts → ParseResult β ts'}
    {go : Tokens → Except Tokens Tokens}
    (h : ∀ p, reach (next p) = go p.rest) :
    reach (step >>= next) = reach step >>= go := by
  cases step with
  | ok p => exact h p
  | error e => rfl

/-- What only puts a value together gets no further. -/
theorem reach_bind_of_ok {step : ParseResult α ts}
    {next : Parsed α ts → ParseResult β ts'}
    (h : ∀ p, reach (next p) = .ok p.rest) :
    reach (step >>= next) = reach step := by
  cases step with
  | ok p => exact h p
  | error e => rfl

/-! ### Single tokens -/

/-- Takes a token that has to come next. -/
def take (accepts : Token → Bool) : Tokens → Except Tokens Tokens
  | [] => .error []
  | t :: rest => if accepts t.value then .ok rest else .error (t :: rest)

/-- Steps over a mark if it comes next. -/
def skip (m : Mark) (ts : Tokens) : Except Tokens Tokens :=
  .ok (optionalMark m ts).rest

/-- Whether a token is a name. -/
def isName : Token → Bool
  | .identifier _ => true
  | _ => false

theorem isName_iff {token : Token} :
    isName token = true ↔ ∃ name, token = .identifier name := by
  cases token <;> simp [isName]

/-- Whether a token stands between the name and the value of a field. -/
def isSign : Token → Bool
  | .mark .equals => true
  | .mark .colon => true
  | _ => false

theorem isSign_iff {token : Token} :
    isSign token = true ↔ token = .mark .equals ∨ token = .mark .colon := by
  cases token with
  | mark m => cases m <;> simp [isSign]
  | _ => simp [isSign]

/-- Whether a token is a string. -/
def isText : Token → Bool
  | .string _ => true
  | _ => false

theorem isText_iff {token : Token} :
    isText token = true ↔ ∃ content, token = .string content := by
  cases token <;> simp [isText]

theorem reach_mark (m : Mark) (expected : Expectation)
    (within : Option Expectation) (ts : Tokens) :
    reach (mark m expected within ts) = take (· = .mark m) ts := by
  cases ts with
  | nil => rfl
  | cons t rest =>
    by_cases h : t.value = .mark m
    · simp [mark, take, h, Parsed.read]
    · simp [mark, take, h]

theorem reach_identifier (within : Option Expectation) (ts : Tokens) :
    reach (identifier within ts) = take isName ts := by
  cases ts with
  | nil => rfl
  | cons t rest =>
    obtain ⟨token, span⟩ := t
    cases token <;> rfl

/-! ### Paths, literals and modifiers -/

theorem reach_pathTail_dot (within : Option Expectation) (dot : Span)
    (rest : Tokens) :
    reach (pathTail within (⟨.mark .dot, dot⟩ :: rest)) =
      take isName rest >>= fun rest => reach (pathTail within rest) := by
  rcases rest with _ | ⟨⟨token, span⟩, rest⟩
  · rw [pathTail]
    · rfl
    · simp
  · cases token with
    | identifier name =>
      rw [pathTail]
      exact reach_bind_of_ok fun p => rfl
    | _ =>
      rw [pathTail]
      · rfl
      · simp

theorem reach_pathTail_of_ne (within : Option Expectation)
    (h : next? ts ≠ some (.mark .dot)) :
    reach (pathTail within ts) = .ok ts := by
  rw [pathTail.eq_def]
  split
  · exact absurd rfl h
  · exact absurd rfl h
  · rfl

theorem reach_literal_record (opening : Span) (rest : Tokens) :
    reach (literal (⟨.mark .recordOpen, opening⟩ :: rest)) =
      reach (recordFields rest) >>= take (· = .mark .rightParen) := by
  rw [literal]
  refine reach_bind fun p => ?_
  rw [← reach_mark]
  exact reach_bind_of_ok fun p => rfl

theorem reach_literal_of_ne (h : next? ts ≠ some (.mark .recordOpen)) :
    reach (literal ts) = take (simpleLiteral? · |>.isSome) ts := by
  rw [literal.eq_def]
  split
  · rfl
  · exact absurd rfl h
  · next t rest _ =>
    cases hs : simpleLiteral? t.value <;> simp [take, hs, Parsed.read]

theorem reach_recordFields_name (name : String) (span : Span)
    (rest : Tokens) :
    reach (recordFields (⟨.identifier name, span⟩ :: rest)) =
      take isSign rest >>= fun rest =>
        reach (literal rest) >>= fun rest =>
          skip .comma rest >>= fun rest => reach (recordFields rest) := by
  rcases rest with _ | ⟨⟨token, span'⟩, rest⟩
  · rw [recordFields]
    rfl
  · rw [recordFields]
    by_cases h : token = .mark .equals ∨ token = .mark .colon
    · have hs : isSign token = true := isSign_iff.2 h
      simp only [h, if_true, take, hs]
      refine reach_bind fun p => ?_
      exact reach_bind_of_ok fun p => rfl
    · have hs : isSign token = false := by
        rw [Bool.eq_false_iff, ne_eq, isSign_iff]
        exact h
      simp only [h, if_false, take, hs]
      rfl

theorem reach_recordFields_of_ne
    (h : ∀ name, next? ts ≠ some (.identifier name)) :
    reach (recordFields ts) = .ok ts := by
  rw [recordFields.eq_def]
  split
  · exact absurd rfl (h _)
  · exact absurd rfl (h _)
  · rfl

theorem modifierNames_rest_cons (name : String) (span : Span)
    (rest : Tokens) :
    (.ok (modifierNames (⟨.identifier name, span⟩ :: rest)).rest :
      Except Tokens Tokens) =
      skip .comma rest >>= fun rest => .ok (modifierNames rest).rest := by
  rw [(modifierNames_cons name span rest).2]
  rfl

/-! ### Declarations and members -/

/-- How far the start of a declaration gets. -/
def reachHeader (ts : Tokens) : Except Tokens Tokens :=
  match header? ts with
  | none => .error ts
  | some (.ok header) => .ok header.rest
  | some (.error e) => .error e.rest

theorem reach_bind_header {header : Except SyntaxError (Header ts)}
    {next : Header ts → ParseResult β ts'}
    {go : Tokens → Except Tokens Tokens} (hh : header? ts = some header)
    (h : ∀ header, reach (next header) = go header.rest) :
    reach (header >>= next) = reachHeader ts >>= go := by
  rw [reachHeader, hh]
  cases header with
  | ok header => exact h header
  | error e => rfl

theorem reachHeader_bracket (opening : Span) (tag : String) (span : Span)
    (rest : Tokens) :
    reachHeader (⟨.mark .leftBracket, opening⟩ :: ⟨.identifier tag, span⟩ ::
      rest) =
      skip .comma rest >>= fun rest =>
        .ok (modifierNames rest).rest >>= fun rest =>
          take (· = .mark .rightBracket) rest >>= take isName := by
  have hn := (modifierNames_cons tag span rest).2
  rcases hp : modifierNames (⟨.identifier tag, span⟩ :: rest) with
    ⟨tags, rest', hle⟩
  rw [hp] at hn
  dsimp only at hn
  change reachHeader _ = take (· = .mark .rightBracket)
    (modifierNames (optionalMark .comma rest).rest).rest >>= take isName
  rw [← hn, ← reach_mark _ .rightBracket none, reachHeader, header?, hp]
  dsimp only
  cases mark .rightBracket .rightBracket none rest' with
  | error e => rfl
  | ok p =>
    obtain ⟨closing, rest'', hle'⟩ := p
    change _ = take isName rest''
    rw [← reach_identifier (some .declarationAfterModifiers)]
    dsimp only [bind, Except.bind]
    cases identifier (some .declarationAfterModifiers) rest'' <;> rfl

/-- How far a body gets that may be left out. -/
def reachBody (ts : Tokens) : Except Tokens Tokens :=
  match ts with
  | ⟨.mark .leftBrace, _⟩ :: rest =>
    reach (members rest) >>= take (· = .mark .rightBrace)
  | ts => .ok ts

theorem reachBody_of_ne (h : next? ts ≠ some (.mark .leftBrace)) :
    reachBody ts = .ok ts := by
  rw [reachBody.eq_def]
  split
  · exact absurd rfl h
  · rfl

theorem reach_declarationRest (modifiers : List (Spanned String))
    (typeWord : Spanned String) (ts : Tokens) :
    reach (declarationRest modifiers typeWord ts) =
      reachBody (optionalIdentifier ts).rest >>= skip .semicolon := by
  rw [declarationRest]
  generalize optionalIdentifier ts = p
  obtain ⟨name, rest, h⟩ := p
  dsimp only
  split
  · next rest _ =>
    change _ = (reach (members rest) >>= take (· = .mark .rightBrace)) >>= _
    rw [bind_assoc]
    refine reach_bind fun p => ?_
    rw [← reach_mark]
    exact reach_bind fun q => rfl
  · next hb =>
    rw [reachBody_of_ne]
    · rfl
    · intro hn
      obtain ⟨span, rest', rfl⟩ := next?_eq_some.1 hn
      exact hb _ _ h rfl HEq.rfl

theorem reach_declarations_of_header (h : header? ts ≠ none) :
    reach (declarations ts) =
      reachHeader ts >>= fun rest =>
        (reachBody (optionalIdentifier rest).rest >>= skip .semicolon) >>=
          fun rest => reach (declarations rest) := by
  rw [declarations.eq_def]
  split
  · next hh => exact absurd hh h
  · next header hh =>
    refine reach_bind_header hh fun header => ?_
    rw [← reach_declarationRest header.modifiers header.typeWord]
    refine reach_bind fun p => ?_
    exact reach_bind_of_ok fun q => rfl

theorem reach_declarations_of_none (h : header? ts = none) :
    reach (declarations ts) = .ok ts := by
  rw [declarations.eq_def, h]
  rfl

theorem reach_members_name (name : String) (span : Span) (rest : Tokens) :
    reach (members (⟨.identifier name, span⟩ :: rest)) =
      reach (memberRest ⟨name, span⟩ rest) >>= fun rest =>
        skip .semicolon rest >>= fun rest => reach (members rest) := by
  rw [members]
  refine reach_bind fun p => ?_
  exact reach_bind_of_ok fun q => rfl

theorem reach_members_of_ne
    (h : ∀ name, next? ts ≠ some (.identifier name)) :
    reach (members ts) = .ok ts := by
  rw [members.eq_def]
  split
  · exact absurd rfl (h _)
  · rfl

theorem reach_memberRest_equals (name : Spanned String) (sign : Span)
    (rest : Tokens) :
    reach (memberRest name (⟨.mark .equals, sign⟩ :: rest)) =
      reach (literal rest) := by
  rw [memberRest]
  exact reach_bind_of_ok fun p => rfl

theorem reach_memberRest_path (name : Spanned String) (sign : Span)
    (first : String) (span : Span) (rest : Tokens) :
    reach (memberRest name
      (⟨.mark .colon, sign⟩ :: ⟨.identifier first, span⟩ :: rest)) =
      reach (pathTail none rest) := by
  rw [memberRest]
  exact reach_bind_of_ok fun p => rfl

theorem reach_memberRest_colon (name : Spanned String) (sign : Span)
    (h : ∀ first, next? rest ≠ some (.identifier first)) :
    reach (memberRest name (⟨.mark .colon, sign⟩ :: rest)) =
      reach (literal rest) := by
  rw [memberRest]
  · exact reach_bind_of_ok fun p => rfl
  · rintro first span rest' rfl
    exact h first rfl

theorem reach_memberRest_block (name : Spanned String) (opening : Span)
    (rest : Tokens) :
    reach (memberRest name (⟨.mark .leftBrace, opening⟩ :: rest)) =
      reach (declarations rest) >>= take (· = .mark .rightBrace) := by
  rw [memberRest]
  refine reach_bind fun p => ?_
  rw [← reach_mark]
  exact reach_bind_of_ok fun q => rfl

theorem reach_memberRest_of_ne (name : Spanned String)
    (he : next? ts ≠ some (.mark .equals))
    (hc : next? ts ≠ some (.mark .colon))
    (hb : next? ts ≠ some (.mark .leftBrace)) :
    reach (memberRest name ts) = .error ts := by
  rw [memberRest.eq_def]
  split
  · exact absurd rfl he
  · exact absurd rfl hc
  · exact absurd rfl hc
  · exact absurd rfl hb
  · rfl

/-! ### Items -/

theorem reach_unitName_name (first : String) (span : Span) (rest : Tokens) :
    reach (unitName (⟨.identifier first, span⟩ :: rest)) =
      reach (pathTail (some .unitName) rest) := by
  rw [unitName]
  exact reach_bind_of_ok fun p => rfl

theorem reach_unitName_of_ne
    (h : ∀ name, next? ts ≠ some (.identifier name)) :
    reach (unitName ts) = take isText ts := by
  rcases ts with _ | ⟨⟨token, span⟩, rest⟩
  · rfl
  · cases token with
    | identifier name => exact absurd rfl (h name)
    | _ => rfl

theorem reach_items_language (word : Span) (rest : Tokens) :
    reach (items (⟨.keyword .language, word⟩ :: rest)) =
      take isName rest >>= fun rest =>
        skip .semicolon rest >>= fun rest => reach (items rest) := by
  rw [items, ← reach_identifier (some .languageName)]
  refine reach_bind fun p => ?_
  exact reach_bind_of_ok fun q => rfl

theorem reach_items_importUnit (word : Span) (rest : Tokens) :
    reach (items (⟨.keyword .importUnit, word⟩ :: rest)) =
      reach (unitName rest) >>= fun rest =>
        skip .semicolon rest >>= fun rest => reach (items rest) := by
  rw [items]
  refine reach_bind fun p => ?_
  exact reach_bind_of_ok fun q => rfl

theorem reach_items_of_header (h : header? ts ≠ none) :
    reach (items ts) =
      reachHeader ts >>= fun rest =>
        (reachBody (optionalIdentifier rest).rest >>= skip .semicolon) >>=
          fun rest => skip .semicolon rest >>= fun rest =>
            reach (items rest) := by
  rw [items.eq_def]
  split
  · exact absurd rfl h
  · exact absurd rfl h
  · split
    · next hh => exact absurd hh h
    · next header hh =>
      refine reach_bind_header hh fun header => ?_
      rw [← reach_declarationRest header.modifiers header.typeWord]
      refine reach_bind fun p => ?_
      exact reach_bind_of_ok fun q => rfl

theorem reach_items_of_none (hl : next? ts ≠ some (.keyword .language))
    (hi : next? ts ≠ some (.keyword .importUnit)) (h : header? ts = none) :
    reach (items ts) = .ok ts := by
  rw [items.eq_def]
  split
  · exact absurd rfl hl
  · exact absurd rfl hi
  · rw [h]
    rfl

end Parser

end ModelText
