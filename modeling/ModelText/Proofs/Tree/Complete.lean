import ModelText.Event
import ModelText.Proofs.Tree.Sound

/-!
# What the grammar derives is read by the parser

The parser is greedy and gives up at the first token that does not fit. Still it
reads whatever the grammar derives, with optional parts left out at will. For
most parts this is so because what has to follow them shows where they end. The
exception is the end of a declaration: in `A B { }` the second word may have
been derived as the type word of another declaration. Then what was derived for
the second declaration behind its type word is derived for the first one behind
its name as well, and so on along the words that follow (`Follows.shift`).

Where the derivation is itself a greedy one, the parser reads the very tree that
was derived.
-/

namespace ModelText

open ModelText.Parser
open Tokens (next? next?_eq_some)

namespace Grammar

variable {greedy : Prop} {ts rest out : Tokens}

/-! ### Parts that end where they have to -/

theorem OptionalMark.rest_eq {m : Mark} (h : OptionalMark greedy m ts rest)
    (hn : next? rest ≠ some (.mark m)) : (optionalMark m ts).rest = rest := by
  cases h with
  | taken => simp [optionalMark, Parsed.read]
  | omitted =>
    cases ts with
    | nil => rfl
    | cons t ts =>
      simp only [Tokens.next?_cons, ne_eq, Option.some.injEq] at hn
      simp [optionalMark, hn, Parsed.read]

theorem OptionalMark.next_eq {m : Mark} (h : OptionalMark greedy m ts rest) :
    next? ts = some (.mark m) ∨ ts = rest := by
  cases h with
  | taken => exact .inl rfl
  | omitted => exact .inr rfl

theorem PathTail.reads {within : Option Expectation}
    {names : List (Spanned String)} (h : PathTail ts names out)
    (hn : next? out ≠ some (.mark .dot)) :
    Reads (pathTail within ts) names out := by
  induction h with
  | nil rest =>
    refine reads_pathTail.2 (.inr ⟨rfl, rfl, ?_⟩)
    rintro dot rest rfl
    exact hn rfl
  | cons _ ih => exact reads_pathTail.2 (.inl ⟨_, _, _, _, _, rfl, ih hn, rfl⟩)

theorem Fields.next_eq {fields : List Field} (h : Fields greedy ts fields out) :
    ts = out ∨ ∃ name, next? ts = some (.identifier name) := by
  cases h with
  | nil => exact .inl rfl
  | cons => exact .inr ⟨_, rfl⟩

mutual

theorem Literal.reads {ts out : Tokens} {value : Spanned ModelText.Literal} :
    Literal greedy ts value out → Reads (literal ts) value out
  | .simple _ _ h =>
    reads_literal.2 (.inr ⟨_, _, _, rfl, simpleLiteral?_eq_some.2 h, rfl⟩)
  | .record h => reads_literal.2 (.inl ⟨_, _, _, _, rfl, h.reads rfl, rfl⟩)

theorem Fields.reads {ts out : Tokens} {fields : List Field} :
    Fields greedy ts fields out → next? out = some (.mark .rightParen) →
      Reads (recordFields ts) fields out
  | .nil _, hn => reads_recordFields.2 (.inr ⟨rfl, rfl, by simp [hn]⟩)
  | .cons hs hv hc h, hn => by
    have hr := hc.rest_eq (by
      obtain rfl | ⟨name, hw⟩ := h.next_eq
      · simp [hn]
      · simp [hw])
    refine reads_recordFields.2 (.inl ⟨_, _, _, _, _, _, _, _, rfl, hs,
      hv.reads, ?_, rfl⟩)
    rw [hr]
    exact h.reads hn

end

theorem ModifierNames.next_eq {names : List (Spanned String)}
    (h : ModifierNames greedy ts names out) :
    ts = out ∨ ∃ name, next? ts = some (.identifier name) := by
  cases h with
  | nil => exact .inl rfl
  | cons => exact .inr ⟨_, rfl⟩

theorem ModifierNames.modifierNames_eq {names : List (Spanned String)}
    (h : ModifierNames greedy ts names out)
    (hn : next? out = some (.mark .rightBracket)) :
    (modifierNames ts).value = names ∧ (modifierNames ts).rest = out := by
  induction h with
  | nil rest => exact modifierNames_of_ne (by simp [hn])
  | @cons name span names rest rest₁ rest₂ hc h ih =>
    have hr := hc.rest_eq (by
      obtain rfl | ⟨word, hw⟩ := h.next_eq
      · simp [hn]
      · simp [hw])
    obtain ⟨hv, hm⟩ := modifierNames_cons name span rest
    rw [hv, hm, hr, (ih hn).1]
    exact ⟨rfl, (ih hn).2⟩

theorem Header.reads {modifiers : List (Spanned String)}
    {typeWord : Spanned String} (h : Header greedy ts modifiers typeWord out) :
    ReadsHeader ts modifiers typeWord out := by
  cases h with
  | plain => exact readsHeader_iff.2 (.inl ⟨rfl, rfl⟩)
  | modified hn h =>
    obtain ⟨hv, hr⟩ := h.modifierNames_eq rfl
    cases h with
    | nil => exact absurd rfl hn
    | cons => exact readsHeader_iff.2 (.inr ⟨_, _, _, _, _, rfl, hr, hv.symm⟩)

/-! ### What declarations, members and items begin with -/

theorem Header.next_eq {modifiers : List (Spanned String)}
    {typeWord : Spanned String} (h : Header greedy ts modifiers typeWord out) :
    next? ts = some (.mark .leftBracket) ∨
      ∃ word, next? ts = some (.identifier word) := by
  cases h with
  | plain => exact .inr ⟨_, rfl⟩
  | modified => exact .inl rfl

theorem Declarations.next_eq {ds : List ModelText.Declaration}
    (h : Declarations greedy ts ds out) :
    ts = out ∨ next? ts = some (.mark .leftBracket) ∨
      ∃ word, next? ts = some (.identifier word) := by
  cases h with
  | nil => exact .inl rfl
  | cons hd =>
    cases hd with
    | intro hh => exact .inr hh.next_eq

theorem Members.next_eq {ms : List ModelText.Member}
    (h : Members greedy ts ms out) :
    ts = out ∨ ∃ name, next? ts = some (.identifier name) := by
  cases h with
  | nil => exact .inl rfl
  | cons hm => cases hm <;> exact .inr ⟨_, rfl⟩

theorem Items.next_eq {is : List ModelText.Item}
    (h : Items greedy ts is out) :
    ts = out ∨ next? ts = some (.keyword .language) ∨
      next? ts = some (.keyword .importUnit) ∨
      next? ts = some (.mark .leftBracket) ∨
      ∃ word, next? ts = some (.identifier word) := by
  cases h with
  | nil => exact .inl rfl
  | cons hi =>
    cases hi with
    | language => exact .inr (.inl rfl)
    | importPath => exact .inr (.inr (.inl rfl))
    | importText => exact .inr (.inr (.inl rfl))
    | declaration hd =>
      cases hd with
      | intro hh => exact .inr (.inr (.inr hh.next_eq))

theorem Literal.next_ne {value : Spanned ModelText.Literal}
    (h : Literal greedy ts value out)
    (hn : ∀ word, value.value ≠ .identifier word) :
    ∀ word, next? ts ≠ some (.identifier word) := by
  intro word hw
  cases h with
  | simple _ _ hs =>
    cases hs with
    | identifier name => exact hn name rfl
    | _ => cases hw
  | record => cases hw

/-! ### The end of a declaration -/

/-- `K ts a` says that `a` can be derived from `ts` where a declaration ends,
and in such a place a declaration may stand. -/
structure Follows {α : Type} (greedy : Prop) (K : Tokens → α → Prop) :
    Prop where
  /-- A body belongs to the declaration before. -/
  no_brace {ts : Tokens} {a : α} (h : K ts a) :
    next? ts ≠ some (.mark .leftBrace)
  /-- A semicolon may belong to the declaration before. -/
  semicolon (hg : ¬greedy) {span : Span} {ts : Tokens} {a : α}
    (h : K (⟨.mark .semicolon, span⟩ :: ts) a) : ∃ b, K ts b
  /-- A word that comes next begins a declaration. -/
  begins (hg : ¬greedy) {word : String} {span : Span} {ts : Tokens} {a : α}
    (h : K (⟨.identifier word, span⟩ :: ts) a) :
    ∃ name members braces ts₁ ts₂ ts₃ b, OptionalName greedy ts name ts₁ ∧
      OptionalBody greedy ts₁ members braces ts₂ ∧
      OptionalMark greedy .semicolon ts₂ ts₃ ∧ K ts₃ b
  /-- Any word may begin a declaration. -/
  begin (hg : ¬greedy) (word : String) (span : Span)
    {members : List ModelText.Member} {braces : Option Span}
    {ts₁ ts₂ ts₃ : Tokens} {b : α}
    (hb : OptionalBody greedy ts₁ members braces ts₂)
    (hs : OptionalMark greedy .semicolon ts₂ ts₃) (h : K ts₃ b) :
    ∃ a, K (⟨.identifier word, span⟩ :: ts₁) a

namespace Follows

variable {α : Type} {K : Tokens → α → Prop} (hK : Follows greedy K)
include hK

/-- A word that was taken for the begin of the next declaration can be the name
of the one before: the rest is then derived with the words moved by one. -/
theorem shift (hg : ¬greedy) {word : String} {span : Span} {a : α}
    (h : K (⟨.identifier word, span⟩ :: ts) a) :
    ∃ members braces ts₁ ts₂ b, OptionalBody greedy ts members braces ts₁ ∧
      OptionalMark greedy .semicolon ts₁ ts₂ ∧ K ts₂ b := by
  obtain ⟨name, members, braces, ts₁, ts₂, ts₃, b, hn, hb, hs, hk⟩ :=
    hK.begins hg h
  cases hn with
  | omitted => exact ⟨_, _, _, _, _, hb, hs, hk⟩
  | taken word' span' =>
    obtain ⟨a', hk'⟩ := hK.begin hg word' span' hb hs hk
    exact ⟨_, _, _, _, _, .omitted _ (absurd · hg), .omitted _ (absurd · hg),
      hk'⟩

/-- The name can be taken where it may stand. -/
theorem take_name {name : Option (Spanned String)}
    {members : List ModelText.Member} {braces : Option Span}
    {ts₁ ts₂ ts₃ : Tokens} {a : α} (hn : OptionalName greedy ts name ts₁)
    (hb : OptionalBody greedy ts₁ members braces ts₂)
    (hs : OptionalMark greedy .semicolon ts₂ ts₃) (h : K ts₃ a) :
    ∃ members' braces' ts₂' ts₃' b,
      OptionalBody greedy (optionalIdentifier ts).rest members' braces' ts₂' ∧
      OptionalMark greedy .semicolon ts₂' ts₃' ∧ K ts₃' b ∧
      (greedy → (optionalIdentifier ts).value = name ∧ members' = members ∧
        braces' = braces ∧ b = a) := by
  cases hn with
  | taken =>
    exact ⟨_, _, _, _, _, hb, hs, h, fun _ => ⟨rfl, rfl, rfl, rfl⟩⟩
  | omitted _ hn =>
    by_cases hw : ∃ word, next? ts = some (.identifier word)
    · obtain ⟨word, hw⟩ := hw
      have hg : ¬greedy := fun hg => hn hg word hw
      obtain ⟨span, rest, rfl⟩ := next?_eq_some.1 hw
      -- neither a body nor a semicolon begins with the word
      cases hb with
      | omitted =>
        obtain hs' | rfl := hs.next_eq
        · cases hs'
        · obtain ⟨members', braces', ts₂, ts₃, b, hb, hs, hk⟩ := hK.shift hg h
          exact ⟨_, _, _, _, _, hb, hs, hk, (absurd · hg)⟩
    · obtain ⟨hv, hr⟩ := optionalIdentifier_of_ne fun word h => hw ⟨word, h⟩
      rw [hv, hr]
      exact ⟨_, _, _, _, _, hb, hs, h, fun _ => ⟨rfl, rfl, rfl, rfl⟩⟩

/-- The semicolon can be taken where it may stand. -/
theorem take_semicolon {a : α} (hs : OptionalMark greedy .semicolon ts rest)
    (h : K rest a) :
    ∃ b, K (optionalMark .semicolon ts).rest b ∧ (greedy → b = a) := by
  cases hs with
  | taken => exact ⟨a, by simpa [optionalMark, Parsed.read], fun _ => rfl⟩
  | omitted _ hn =>
    by_cases hm : next? ts = some (.mark .semicolon)
    · obtain ⟨span, rest, rfl⟩ := next?_eq_some.1 hm
      obtain ⟨b, hb⟩ := hK.semicolon (fun hg => hn hg rfl) h
      exact ⟨b, by simpa [optionalMark, Parsed.read], fun hg =>
        absurd rfl (hn hg)⟩
    · have hs : OptionalMark False .semicolon ts ts := .omitted _ False.elim
      have hr := hs.rest_eq hm
      exact ⟨a, by rwa [hr], fun _ => rfl⟩

end Follows

/-! ### Declarations and members -/

/-- The parser reads what is derived from the tokens up to a closing brace. -/
def MembersRead (greedy : Prop) (ts : Tokens) : Prop :=
  ∀ ms out, Members greedy ts ms out → next? out = some (.mark .rightBrace) →
    ∃ ms', Reads (members ts) ms' out ∧ (greedy → ms' = ms)

/-- The parser reads what is derived from the tokens up to a closing brace. -/
def DeclarationsRead (greedy : Prop) (ts : Tokens) : Prop :=
  ∀ ds out, Declarations greedy ts ds out →
    next? out = some (.mark .rightBrace) →
      ∃ ds', Reads (declarations ts) ds' out ∧ (greedy → ds' = ds)

/-- The parser takes what is derived behind a type word, in a place where
declarations may follow. -/
theorem Follows.reads {α : Type} {K : Tokens → α → Prop}
    (hK : Follows greedy K) {modifiers : List (Spanned String)}
    {typeWord : Spanned String} {name : Option (Spanned String)}
    {ms : List ModelText.Member} {braces : Option Span}
    {ts₁ ts₂ ts₃ : Tokens} {a : α} (hn : OptionalName greedy ts name ts₁)
    (hb : OptionalBody greedy ts₁ ms braces ts₂)
    (hs : OptionalMark greedy .semicolon ts₂ ts₃) (h : K ts₃ a)
    (ih : ∀ rest : Tokens, rest.length < ts.length → MembersRead greedy rest) :
    ∃ d out b, Reads (declarationRest modifiers typeWord ts) d out ∧
      K out b ∧ (greedy → b = a ∧ d = ⟨modifiers, typeWord, name, ms,
        braces.elim (headerSpan typeWord name) typeWord.span.union⟩) := by
  obtain ⟨ms', braces', ts₂', ts₃', b, hb, hs, hk, he⟩ :=
    hK.take_name hn hb hs h
  have hle := (optionalIdentifier ts).length_le
  obtain ⟨c, hc, hcb⟩ := hK.take_semicolon hs hk
  generalize hr : (optionalIdentifier ts).rest = rest at hb hle
  cases hb with
  | taken hm =>
    obtain ⟨ms'', hm', heq⟩ := ih _ (by grind) _ _ hm rfl
    refine ⟨_, _, c, reads_declarationRest.2 (.inl ⟨_, _, _, _, _, hr, hm', rfl,
      rfl⟩), hc, fun hg => ?_⟩
    obtain ⟨hv, rfl, rfl, rfl⟩ := he hg
    rw [hv, hcb hg, heq hg]
    exact ⟨rfl, rfl⟩
  | omitted =>
    have hb' : next? ts₂' ≠ some (.mark .leftBrace) := by
      obtain hn' | rfl := hs.next_eq
      · simp [hn']
      · exact hK.no_brace hk
    refine ⟨_, _, c, reads_declarationRest.2 (.inr ⟨hr ▸ hb', rfl, rfl⟩),
      by rwa [hr], fun hg => ?_⟩
    obtain ⟨hv, rfl, rfl, rfl⟩ := he hg
    rw [hv, hcb hg]
    exact ⟨rfl, rfl⟩

theorem follows_declarations (ho : next? out = some (.mark .rightBrace)) :
    Follows greedy fun ts ds => Declarations greedy ts ds out where
  no_brace h := by
    obtain rfl | h | ⟨word, h⟩ := h.next_eq <;> simp_all
  semicolon _ _ _ _ h := by
    obtain rfl | h | ⟨word, h⟩ := h.next_eq <;> simp_all
  begins _ _ _ _ _ h := by
    cases h with
    | nil => cases ho
    | cons hd h =>
      cases hd with
      | intro hh hn hb hs =>
        cases hh
        exact ⟨_, _, _, _, _, _, _, hn, hb, hs, h⟩
  begin hg _ _ _ _ _ _ _ _ hb hs h :=
    ⟨_, .cons (.intro (.plain _ _ _) (.omitted _ (absurd · hg)) hb hs) h⟩

theorem Member.reads {m : ModelText.Member} (h : Member greedy ts m out)
    (ho : next? out ≠ some (.mark .dot))
    (ih : ∀ rest : Tokens, rest.length < ts.length →
      DeclarationsRead greedy rest) :
    ∃ name span rest m', ts = ⟨.identifier name, span⟩ :: rest ∧
      Reads (memberRest ⟨name, span⟩ rest) m' out ∧ (greedy → m' = m) := by
  cases h with
  | slot h =>
    exact ⟨_, _, _, _, rfl, reads_memberRest.2 (.inl ⟨_, _, _, rfl, h.reads,
      rfl⟩), fun _ => rfl⟩
  | link h =>
    cases h with
    | intro h =>
      exact ⟨_, _, _, _, rfl, reads_memberRest.2 (.inr (.inl ⟨_, _, _, _, _,
        rfl, h.reads ho, rfl⟩)), fun _ => rfl⟩
  | value hn h =>
    exact ⟨_, _, _, _, rfl, reads_memberRest.2 (.inr (.inr (.inl ⟨_, _, _, rfl,
      h.next_ne hn, h.reads, rfl⟩))), fun _ => rfl⟩
  | block h =>
    obtain ⟨ds', hd, he⟩ := ih _ (by grind) _ _ h rfl
    exact ⟨_, _, _, _, rfl, reads_memberRest.2 (.inr (.inr (.inr ⟨_, _, _, _,
      rfl, hd, rfl⟩))), fun hg => by rw [he hg]⟩

section Step

variable
  (ihm : ∀ rest : Tokens, rest.length < ts.length → MembersRead greedy rest)
  (ihd : ∀ rest : Tokens, rest.length < ts.length →
    DeclarationsRead greedy rest)
include ihm ihd

theorem membersRead_of_shorter : MembersRead greedy ts := by
  intro ms out h ho
  cases h with
  | nil =>
    exact ⟨_, reads_members.2 (.inr ⟨rfl, rfl, by simp [ho]⟩), fun _ => rfl⟩
  | @cons m ms _ rest₁ rest₂ _ hm hs h =>
    have hf : next? rest₂ = some (.mark .rightBrace) ∨
        ∃ name, next? rest₂ = some (.identifier name) :=
      h.next_eq.imp_left fun h => by rwa [h]
    have hd : next? rest₁ ≠ some (.mark .dot) := by
      obtain hs | rfl := hs.next_eq
      · simp [hs]
      · obtain hf | ⟨name, hf⟩ := hf <;> simp [hf]
    have hr := hs.rest_eq (by obtain hf | ⟨name, hf⟩ := hf <;> simp [hf])
    obtain ⟨name, span, rest, m', rfl, hm', he⟩ := hm.reads hd ihd
    have hle := hm'.length_le
    have hle' := length_optionalMark_le .semicolon rest₁
    obtain ⟨ms', h', he'⟩ := ihm rest₂ (by grind) _ _ h ho
    rw [← hr] at h'
    exact ⟨_, reads_members.2 (.inl ⟨_, _, _, _, _, _, rfl, hm', h', rfl⟩),
      fun hg => by rw [he hg, he' hg]⟩

theorem declarationsRead_of_shorter : DeclarationsRead greedy ts := by
  intro ds out h ho
  cases h with
  | nil =>
    refine ⟨_, reads_declarations.2 (.inr ⟨rfl, rfl,
      header?_eq_none.2 ⟨by simp [ho], ?_⟩⟩), fun _ => rfl⟩
    rintro _ _ _ _ rfl
    cases ho
  | cons hd h =>
    cases hd with
    | intro hh hn hb hs =>
      have hlt := hh.reads.length_lt
      obtain ⟨d, rest, b, hd, hk, he⟩ := (follows_declarations ho).reads
        hn hb hs h fun rest h => ihm rest (Nat.lt_trans h hlt)
      have hle := hd.length_le
      obtain ⟨ds', h', he'⟩ := ihd rest (by grind) _ _ hk ho
      exact ⟨_, reads_declarations.2 (.inl ⟨_, _, _, _, _, _, hh.reads, hd,
        h', rfl⟩), fun hg => by rw [(he hg).2, he' hg, (he hg).1]⟩

end Step

/-- Induction on the number of tokens: what is derived behind a name that was
left out need not be a part of the derivation. -/
theorem membersRead_and_declarationsRead (ts : Tokens) :
    MembersRead greedy ts ∧ DeclarationsRead greedy ts := by
  induction hl : ts.length using Nat.strongRecOn generalizing ts with
  | _ n ih =>
    subst hl
    have ihm (rest : Tokens) (h : rest.length < ts.length) :
        MembersRead greedy rest := (ih _ h rest rfl).1
    have ihd (rest : Tokens) (h : rest.length < ts.length) :
        DeclarationsRead greedy rest := (ih _ h rest rfl).2
    exact ⟨membersRead_of_shorter ihm ihd, declarationsRead_of_shorter ihm ihd⟩

/-! ### Units -/

theorem Items.next_ne {is : List ModelText.Item}
    (h : Items greedy ts is []) :
    next? ts ≠ some (.mark .leftBrace) ∧ next? ts ≠ some (.mark .semicolon) ∧
      next? ts ≠ some (.mark .dot) := by
  obtain rfl | h | h | h | ⟨word, h⟩ := h.next_eq <;> simp [*]

theorem follows_items : Follows greedy fun ts is =>
    ∃ ts', OptionalMark greedy .semicolon ts ts' ∧ Items greedy ts' is [] where
  no_brace h := by
    obtain ⟨ts', hs, h⟩ := h
    obtain hs | rfl := hs.next_eq
    · simp [hs]
    · exact h.next_ne.1
  semicolon hg _ _ _ h := by
    obtain ⟨ts', hs, h⟩ := h
    cases hs with
    | taken => exact ⟨_, _, .omitted _ (absurd · hg), h⟩
    | omitted => exact absurd rfl h.next_ne.2.1
  begins _ _ _ _ _ h := by
    obtain ⟨ts', hs, h⟩ := h
    cases hs with
    | omitted =>
      cases h with
      | cons hi hs' h =>
        cases hi with
        | declaration hd =>
          cases hd with
          | intro hh hn hb hs =>
            cases hh
            exact ⟨_, _, _, _, _, _, _, hn, hb, hs, _, hs', h⟩
  begin hg _ _ _ _ _ _ _ _ hb hs h := by
    obtain ⟨ts', hs', h⟩ := h
    exact ⟨_, _, .omitted _ (absurd · hg), .cons (.declaration (.intro
      (.plain _ _ _) (.omitted _ (absurd · hg)) hb hs)) hs' h⟩

theorem Items.reads {ts : Tokens} {is : List ModelText.Item}
    (h : Items greedy ts is []) :
    ∃ is', Reads (items ts) is' [] ∧ (greedy → is' = is) := by
  cases h with
  | nil =>
    exact ⟨_, (reads_items_declaration (by simp) (by simp)).2 (.inr ⟨rfl, rfl,
      header?_eq_none.2 (by simp)⟩), fun _ => rfl⟩
  | @cons i is _ rest₁ rest₂ _ hi hs h =>
    have hr := hs.rest_eq h.next_ne.2.1
    have hle := length_optionalMark_le .semicolon rest₁
    cases hi with
    | @language _ span name =>
      obtain ⟨is', h', he⟩ := h.reads
      rw [← hr] at h'
      exact ⟨_, reads_items_language.2 ⟨⟨name, span⟩, _, _, rfl, h', rfl⟩,
        fun hg => by rw [he hg]⟩
    | importPath hp =>
      cases hp with
      | @intro first span others rest _ hp =>
        have hd : next? rest₁ ≠ some (.mark .dot) := by
          obtain hs | rfl := hs.next_eq
          · simp [hs]
          · exact h.next_ne.2.2
        have hn := reads_unitName.2
          (.inl ⟨first, span, rest, others, rfl, hp.reads hd, rfl⟩)
        have hle' := hn.length_le
        obtain ⟨is', h', he⟩ := h.reads
        rw [← hr] at h'
        exact ⟨_, reads_items_importUnit.2 ⟨_, _, _, hn, h', rfl⟩,
          fun hg => by rw [he hg]⟩
    | importText =>
      obtain ⟨is', h', he⟩ := h.reads
      rw [← hr] at h'
      exact ⟨_, reads_items_importUnit.2 ⟨_, _, _,
        reads_unitName.2 (.inr ⟨_, _, rfl, rfl⟩), h', rfl⟩,
        fun hg => by rw [he hg]⟩
    | declaration hd =>
      cases hd with
      | intro hh hn hb hs' =>
        have hl : next? ts ≠ some (.keyword .language) := by
          obtain hn | ⟨word, hn⟩ := hh.next_eq <;> simp [hn]
        have hi : next? ts ≠ some (.keyword .importUnit) := by
          obtain hn | ⟨word, hn⟩ := hh.next_eq <;> simp [hn]
        have hlt := hh.reads.length_lt
        obtain ⟨d, rest, b, hd, ⟨rest', hs, hk⟩, he⟩ := follows_items.reads
          hn hb hs' ⟨_, hs, h⟩ fun rest _ => (membersRead_and_declarationsRead
            rest).1
        have hle' := hd.length_le
        have hle'' := length_optionalMark_le .semicolon rest
        have hr := hs.rest_eq hk.next_ne.2.1
        obtain ⟨is', h', he'⟩ := hk.reads
        rw [← hr] at h'
        exact ⟨_, (reads_items_declaration hl hi).2 (.inl ⟨_, _, _, _, _, _,
          hh.reads, hd, h', rfl⟩), fun hg => by
            rw [(he hg).2, he' hg, (he hg).1]⟩
termination_by ts.length
decreasing_by all_goals grind

end Grammar

theorem SourceTree.ofTokens_eq_ok {ts : Tokens} {tree : SourceTree} :
    SourceTree.ofTokens ts = .ok tree ↔
      Reads (Parser.items ts) tree.items [] := by
  obtain ⟨is⟩ := tree
  simp only [SourceTree.ofTokens, bind_eq_ok]
  constructor
  · rintro ⟨is', rest, hr, hle, h⟩
    cases rest with
    | nil =>
      cases h
      exact hr
    | cons => cases h
  · intro hr
    exact ⟨is, [], hr, hr.length_le, rfl⟩

/-- The events of a text are those of the tree of its tokens. -/
theorem Event.ofSource_eq_ok_iff {source : String} {events : Events} :
    ofSource source = .ok events ↔ ∃ ts tree, Token.scan source = .ok ts ∧
      SourceTree.ofTokens ts = .ok tree ∧ tree.events = events := by
  unfold ofSource SourceTree.ofSource
  cases Token.scan source with
  | error errors => simp [Except.map]
  | ok ts =>
    cases h : SourceTree.ofTokens ts with
    | error e => simp [Except.map, h]
    | ok tree => simp [Except.map, h]

/-- The parser accepts exactly its grammar. It answers a tree if and only if the
grammar derives the tokens in any way. This tree is one of those that are
derived, namely the one for which every name, body, comma and semicolon is taken
where the next token allows it. -/
theorem SourceTree.ofTokens_accepts_grammar (ts : Tokens) :
    ((∃ tree, SourceTree.ofTokens ts = .ok tree) ↔
      ∃ tree, Grammar.SourceTree False ts tree) ∧
    ∀ tree,
      (SourceTree.ofTokens ts = .ok tree →
        Grammar.SourceTree False ts tree) ∧
      (SourceTree.ofTokens ts = .ok tree ↔
        Grammar.SourceTree True ts tree) := by
  have sound (greedy : Prop) (tree : SourceTree)
      (h : SourceTree.ofTokens ts = .ok tree) :
      Grammar.SourceTree greedy ts tree :=
    items_sound (ofTokens_eq_ok.1 h)
  have complete (greedy : Prop) (tree : SourceTree)
      (h : Grammar.SourceTree greedy ts tree) :
      ∃ is, SourceTree.ofTokens ts = .ok ⟨is⟩ ∧ (greedy → is = tree.items) := by
    obtain ⟨is, hr, he⟩ := Grammar.Items.reads h
    exact ⟨is, ofTokens_eq_ok.2 hr, he⟩
  constructor
  · constructor
    · rintro ⟨tree, h⟩
      exact ⟨tree, sound False tree h⟩
    · rintro ⟨tree, h⟩
      obtain ⟨is, hok, _⟩ := complete False tree h
      exact ⟨⟨is⟩, hok⟩
  · intro tree
    constructor
    · exact sound False tree
    · constructor
      · exact sound True tree
      · intro h
        obtain ⟨is, hok, he⟩ := complete True tree h
        rw [hok, he trivial]

end ModelText
