import ModelText.Proofs.Tree.Grammar

/-!
# What each step of the parser reads

One rule for each step: when it reads a value and leaves a rest. The rules say
this of the steps that a step is made of, so what holds of reading is proved
from them by induction on the tokens, and no proof has to open a step again.
-/

namespace ModelText

namespace Parser

open Tokens (next? next?_eq_some)

variable {α β : Type} {ts ts' rest out : Tokens}

/-- The step reads the value and leaves the rest. -/
def Reads (step : ParseResult α ts) (value : α) (rest : Tokens) : Prop :=
  ∃ h, step = .ok ⟨value, rest, h⟩

/-- A header is read and leaves the rest. -/
def ReadsHeader (ts : Tokens) (modifiers : List (Spanned String))
    (typeWord : Spanned String) (rest : Tokens) : Prop :=
  ∃ h, header? ts = some (.ok ⟨modifiers, typeWord, rest, h⟩)

@[grind →] theorem Reads.length_le {step : ParseResult α ts} {value : α}
    (h : Reads step value rest) : rest.length ≤ ts.length :=
  h.1

theorem ReadsHeader.length_lt {modifiers : List (Spanned String)}
    {typeWord : Spanned String} (h : ReadsHeader ts modifiers typeWord rest) :
    rest.length < ts.length :=
  h.1

theorem reads_ok {p : Parsed α ts} {value : α} :
    Reads (.ok p) value rest ↔ value = p.value ∧ rest = p.rest := by
  obtain ⟨v, r, h⟩ := p
  simp only [Reads, Except.ok.injEq, Parsed.mk.injEq]
  grind

theorem reads_pure {p : Parsed α ts} {value : α} :
    Reads (pure p) value rest ↔ value = p.value ∧ rest = p.rest :=
  reads_ok

@[simp] theorem not_reads_fail {expected : Expectation}
    {within : Option Expectation} {value : α} :
    ¬Reads (fail expected within ts' : ParseResult α ts) value rest := by
  simp [Reads, fail]

theorem bind_eq_ok {step : ParseResult α ts}
    {next : Parsed α ts → Except SyntaxError β} {value : β} :
    step >>= next = .ok value ↔
      ∃ v r, Reads step v r ∧ ∃ h, next ⟨v, r, h⟩ = .ok value := by
  cases step with
  | error e => simp [Reads, bind, Except.bind]
  | ok p =>
    obtain ⟨v, r, h⟩ := p
    simp only [Reads, bind, Except.bind, Except.ok.injEq, Parsed.mk.injEq]
    grind

theorem reads_bind {step : ParseResult α ts}
    {next : Parsed α ts → ParseResult β ts'} {value : β} :
    Reads (step >>= next) value out ↔
      ∃ v r, Reads step v r ∧ ∃ h, Reads (next ⟨v, r, h⟩) value out := by
  simp only [Reads, bind_eq_ok]
  grind

theorem reads_ok_bind {header : α} {next : α → ParseResult β ts'} {value : β} :
    Reads (Except.ok header >>= next) value out ↔
      Reads (next header) value out :=
  Iff.rfl

@[simp] theorem not_reads_error_bind {e : SyntaxError}
    {next : α → ParseResult β ts'} {value : β} :
    ¬Reads (Except.error e >>= next) value out := by
  simp [Reads, bind, Except.bind]

/-! ### Marks and names -/

theorem reads_mark {m : Mark} {expected : Expectation}
    {within : Option Expectation} {span : Span} :
    Reads (mark m expected within ts) span rest ↔
      ts = ⟨.mark m, span⟩ :: rest := by
  cases ts with
  | nil => simp [mark]
  | cons t ts =>
    obtain ⟨token, place⟩ := t
    by_cases h : token = .mark m
    · simp [mark, h, reads_ok, Parsed.read, eq_comm]
    · simp [mark, h]

theorem reads_identifier {within : Option Expectation}
    {name : Spanned String} :
    Reads (identifier within ts) name rest ↔
      ts = ⟨.identifier name.value, name.span⟩ :: rest := by
  rw [identifier.eq_def]
  split
  · obtain ⟨value, place⟩ := name
    simp [reads_ok, Parsed.read, eq_comm]
  · next h =>
    simp only [not_reads_fail, false_iff]
    exact h _ _ _

theorem optionalIdentifier_of_ne
    (h : ∀ name, next? ts ≠ some (.identifier name)) :
    (optionalIdentifier ts).value = none ∧
      (optionalIdentifier ts).rest = ts := by
  rw [optionalIdentifier.eq_def]
  split
  · next name _ _ => exact absurd rfl (h name)
  · exact ⟨rfl, rfl⟩

/-! ### Paths, literals and modifiers -/

theorem reads_pathTail {within : Option Expectation}
    {names : List (Spanned String)} :
    Reads (pathTail within ts) names out ↔
      (∃ dot name span rest others,
        ts = ⟨.mark .dot, dot⟩ :: ⟨.identifier name, span⟩ :: rest ∧
        Reads (pathTail within rest) others out ∧
        names = ⟨name, span⟩ :: others) ∨
      (names = [] ∧ out = ts ∧ ∀ dot rest, ts ≠ ⟨.mark .dot, dot⟩ :: rest) := by
  rw [pathTail.eq_def]
  split
  · simp only [reads_bind, reads_pure, Parsed.read]
    grind
  · simp only [not_reads_fail]
    grind
  · simp only [reads_ok, Parsed.read]
    grind

theorem simpleLiteral?_mark (m : Mark) : simpleLiteral? (.mark m) = none := rfl

theorem reads_literal {value : Spanned Literal} :
    Reads (literal ts) value out ↔
      (∃ opening rest fields closing,
        ts = ⟨.mark .recordOpen, opening⟩ :: rest ∧
        Reads (recordFields rest) fields
          (⟨.mark .rightParen, closing⟩ :: out) ∧
        value = ⟨.record fields, opening.union closing⟩) ∨
      ∃ token span content, ts = ⟨token, span⟩ :: out ∧
        simpleLiteral? token = some content ∧ value = ⟨content, span⟩ := by
  rw [literal.eq_def]
  split
  · simp
  · simp only [reads_bind, reads_pure, Parsed.read, reads_mark]
    grind [simpleLiteral?_mark]
  · next t rest h =>
    obtain ⟨token, span⟩ := t
    split
    · simp only [reads_ok, Parsed.read]
      grind
    · simp only [not_reads_fail]
      grind

theorem reads_recordFields {fields : List Field} :
    Reads (recordFields ts) fields out ↔
      (∃ name span sign span' rest value rest' others,
        ts = ⟨.identifier name, span⟩ :: ⟨.mark sign, span'⟩ :: rest ∧
        (sign = .equals ∨ sign = .colon) ∧ Reads (literal rest) value rest' ∧
        Reads (recordFields (optionalMark .comma rest').rest) others out ∧
        fields = ⟨⟨name, span⟩, value⟩ :: others) ∨
      (fields = [] ∧ out = ts ∧
        ∀ name, next? ts ≠ some (.identifier name)) := by
  rw [recordFields.eq_def]
  split
  · next t rest =>
    obtain ⟨token, span'⟩ := t
    split
    · simp only [reads_bind, reads_pure, Parsed.read]
      grind
    · simp only [not_reads_fail]
      grind
  · simp only [not_reads_fail]
    grind
  · next h h' =>
    have hn : ∀ name, next? ts ≠ some (.identifier name) := by
      intro name hn
      obtain ⟨span, rest, rfl⟩ := next?_eq_some.1 hn
      cases rest with
      | nil => exact h' _ _ rfl
      | cons => exact h _ _ _ _ rfl
    simp only [reads_ok, Parsed.read]
    grind

theorem modifierNames_cons (name : String) (span : Span) (rest : Tokens) :
    (modifierNames (⟨.identifier name, span⟩ :: rest)).value =
      ⟨name, span⟩ :: (modifierNames (optionalMark .comma rest).rest).value ∧
    (modifierNames (⟨.identifier name, span⟩ :: rest)).rest =
      (modifierNames (optionalMark .comma rest).rest).rest := by
  rw [modifierNames]
  exact ⟨rfl, rfl⟩

theorem modifierNames_of_ne (h : ∀ name, next? ts ≠ some (.identifier name)) :
    (modifierNames ts).value = [] ∧ (modifierNames ts).rest = ts := by
  rw [modifierNames.eq_def]
  split
  · next name _ _ => exact absurd rfl (h name)
  · exact ⟨rfl, rfl⟩

theorem readsHeader_iff {modifiers : List (Spanned String)}
    {typeWord : Spanned String} :
    ReadsHeader ts modifiers typeWord out ↔
      (ts = ⟨.identifier typeWord.value, typeWord.span⟩ :: out ∧
        modifiers = []) ∨
      ∃ opening tag span rest closing,
        ts = ⟨.mark .leftBracket, opening⟩ ::
          ⟨.identifier tag, span⟩ :: rest ∧
        (modifierNames (⟨.identifier tag, span⟩ :: rest)).rest =
          ⟨.mark .rightBracket, closing⟩ ::
            ⟨.identifier typeWord.value, typeWord.span⟩ :: out ∧
        modifiers =
          (modifierNames (⟨.identifier tag, span⟩ :: rest)).value := by
  rw [ReadsHeader, header?.eq_def]
  obtain ⟨word, place⟩ := typeWord
  split
  · simp only [Header.read, Option.some.injEq, Except.ok.injEq,
      Header.mk.injEq]
    grind
  · next opening tag span rest =>
    have hle := (modifierNames (⟨.identifier tag, span⟩ :: rest)).length_le
    simp only [Option.some.injEq, bind_eq_ok, reads_mark, reads_identifier,
      pure, Except.pure, Header.read, Except.ok.injEq, Header.mk.injEq]
    grind
  · grind

theorem header?_eq_none :
    header? ts = none ↔ (∀ word, next? ts ≠ some (.identifier word)) ∧
      ∀ opening tag span rest, ts ≠ ⟨.mark .leftBracket, opening⟩ ::
        ⟨.identifier tag, span⟩ :: rest := by
  rw [header?.eq_def]
  split
  · simp
  · simp
  · next h h' =>
    simp only [ne_eq, next?_eq_some]
    grind

/-! ### Declarations and members -/

theorem reads_declarations {ds : List Declaration} :
    Reads (declarations ts) ds out ↔
      (∃ modifiers typeWord rest d rest' others,
        ReadsHeader ts modifiers typeWord rest ∧
        Reads (declarationRest modifiers typeWord rest) d rest' ∧
        Reads (declarations rest') others out ∧ ds = d :: others) ∨
      (ds = [] ∧ out = ts ∧ header? ts = none) := by
  rw [declarations.eq_def]
  split
  · next h =>
    simp only [reads_ok, Parsed.read, ReadsHeader, h]
    grind
  · next header h =>
    cases header with
    | error e =>
      simp only [not_reads_error_bind, ReadsHeader, h]
      grind
    | ok header =>
      obtain ⟨modifiers, typeWord, rest, hlt⟩ := header
      simp only [reads_ok_bind, reads_bind, reads_pure, Parsed.read,
        ReadsHeader, h]
      grind

/-- What follows the type word of a declaration with a body. -/
theorem reads_declarationRest {modifiers : List (Spanned String)}
    {typeWord : Spanned String} {d : Declaration} :
    Reads (declarationRest modifiers typeWord ts) d out ↔
      (∃ opening rest members closing rest',
        (optionalIdentifier ts).rest = ⟨.mark .leftBrace, opening⟩ :: rest ∧
        Reads (Parser.members rest) members
          (⟨.mark .rightBrace, closing⟩ :: rest') ∧
        out = (optionalMark .semicolon rest').rest ∧
        d = ⟨modifiers, typeWord, (optionalIdentifier ts).value, members,
          typeWord.span.union (opening.union closing)⟩) ∨
      (next? (optionalIdentifier ts).rest ≠ some (.mark .leftBrace) ∧
        out = (optionalMark .semicolon (optionalIdentifier ts).rest).rest ∧
        d = ⟨modifiers, typeWord, (optionalIdentifier ts).value, [],
          headerSpan typeWord (optionalIdentifier ts).value⟩) := by
  rw [declarationRest]
  generalize optionalIdentifier ts = p
  obtain ⟨name, rest, h⟩ := p
  dsimp only
  split
  · simp only [reads_bind, reads_pure, Parsed.read, reads_mark]
    grind
  · next h' hb =>
    have hn : next? rest ≠ some (.mark .leftBrace) := by
      intro hn
      obtain ⟨span, rest', rfl⟩ := next?_eq_some.1 hn
      exact hb _ _ h rfl HEq.rfl
    simp only [reads_ok, Parsed.read]
    grind

theorem reads_members {ms : List Member} :
    Reads (members ts) ms out ↔
      (∃ name span rest m rest' others,
        ts = ⟨.identifier name, span⟩ :: rest ∧
        Reads (memberRest ⟨name, span⟩ rest) m rest' ∧
        Reads (members (optionalMark .semicolon rest').rest) others out ∧
        ms = m :: others) ∨
      (ms = [] ∧ out = ts ∧ ∀ name, next? ts ≠ some (.identifier name)) := by
  rw [members.eq_def]
  split
  · simp only [reads_bind, reads_pure, Parsed.read]
    grind
  · simp only [reads_ok, Parsed.read, ne_eq, next?_eq_some]
    grind

theorem reads_memberRest {name : Spanned String} {m : Member} :
    Reads (memberRest name ts) m out ↔
      (∃ sign rest value, ts = ⟨.mark .equals, sign⟩ :: rest ∧
        Reads (literal rest) value out ∧ m = .slot name value) ∨
      (∃ sign first span rest others,
        ts = ⟨.mark .colon, sign⟩ :: ⟨.identifier first, span⟩ :: rest ∧
        Reads (pathTail none rest) others out ∧
        m = .link name (joinPath ⟨first, span⟩ others)) ∨
      (∃ sign rest value, ts = ⟨.mark .colon, sign⟩ :: rest ∧
        (∀ first, next? rest ≠ some (.identifier first)) ∧
        Reads (literal rest) value out ∧ m = .slot name value) ∨
      ∃ opening rest ds closing, ts = ⟨.mark .leftBrace, opening⟩ :: rest ∧
        Reads (declarations rest) ds (⟨.mark .rightBrace, closing⟩ :: out) ∧
        m = .block name ds (opening.union closing) := by
  rw [memberRest.eq_def]
  split
  · simp only [reads_bind, reads_pure, Parsed.read]
    grind
  · simp only [reads_bind, reads_pure, Parsed.read, ne_eq, next?_eq_some]
    grind
  · simp only [reads_bind, reads_pure, Parsed.read, ne_eq, next?_eq_some]
    grind
  · simp only [reads_bind, reads_pure, Parsed.read, reads_mark]
    grind
  · simp only [not_reads_fail]
    grind

/-! ### Items -/

theorem reads_unitName {name : Spanned String} :
    Reads (unitName ts) name out ↔
      (∃ first span rest others, ts = ⟨.identifier first, span⟩ :: rest ∧
        Reads (pathTail (some .unitName) rest) others out ∧
        name = (joinPath ⟨first, span⟩ others).map (".".intercalate ·)) ∨
      ∃ content span, ts = ⟨.string content, span⟩ :: out ∧
        name = ⟨content, span⟩ := by
  rw [unitName.eq_def]
  split
  · simp only [reads_bind, reads_pure, Parsed.read]
    grind
  · simp only [reads_ok, Parsed.read]
    grind
  · simp only [not_reads_fail]
    grind

theorem reads_items_language {word : Span} {is : List Item} :
    Reads (items (⟨.keyword .language, word⟩ :: rest)) is out ↔
      ∃ name rest' others,
        rest = ⟨.identifier name.value, name.span⟩ :: rest' ∧
        Reads (items (optionalMark .semicolon rest').rest) others out ∧
        is = .language name :: others := by
  rw [items]
  simp only [reads_bind, reads_pure, Parsed.read, reads_identifier]
  grind

theorem reads_items_importUnit {word : Span} {is : List Item} :
    Reads (items (⟨.keyword .importUnit, word⟩ :: rest)) is out ↔
      ∃ name rest' others, Reads (unitName rest) name rest' ∧
        Reads (items (optionalMark .semicolon rest').rest) others out ∧
        is = .importUnit name :: others := by
  rw [items]
  simp only [reads_bind, reads_pure, Parsed.read]
  grind

theorem reads_items_declaration {is : List Item}
    (hl : next? ts ≠ some (.keyword .language))
    (hi : next? ts ≠ some (.keyword .importUnit)) :
    Reads (items ts) is out ↔
      (∃ modifiers typeWord rest d rest' others,
        ReadsHeader ts modifiers typeWord rest ∧
        Reads (declarationRest modifiers typeWord rest) d rest' ∧
        Reads (items (optionalMark .semicolon rest').rest) others out ∧
        is = .declaration d :: others) ∨
      (is = [] ∧ out = ts ∧ header? ts = none) := by
  rw [items.eq_def]
  split
  · exact absurd rfl hl
  · exact absurd rfl hi
  · split
    · next h =>
      simp only [reads_ok, Parsed.read, ReadsHeader, h]
      grind
    · next header h =>
      cases header with
      | error e =>
        simp only [not_reads_error_bind, ReadsHeader, h]
        grind
      | ok header =>
        obtain ⟨modifiers, typeWord, rest, hlt⟩ := header
        simp only [reads_ok_bind, reads_bind, reads_pure, Parsed.read,
          ReadsHeader, h]
        grind

end Parser

end ModelText
