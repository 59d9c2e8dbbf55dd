import ModelText.Proofs.Token.Tiling
import ModelText.Proofs.Tree.Complete
import ModelText.Proofs.Tree.Layout

/-!
# Events come in the order of the text

The events of a text go through its tokens from the first to the last. Their
spans end where a token ends and start where one starts, but for the end of an
element, which is told of the last byte of the element; and neither the starts
nor the ends go back.

Elements and blocks are nested in the events as braces are in the tokens.
`Event.Ending` tells of an event that closes one where it was opened, and with
which tokens it goes: an element has a header, and a body if a brace follows the
header; a block has the tokens from the name of its feature to its brace.
-/

namespace ModelText

open Tokens (next?)

/-! ### Nesting -/

/-- What is opened is closed, in the order of the nesting. -/
inductive Nested {α : Type} (opens closes : α → Prop) : List α → Prop
  | nil : Nested opens closes []
  | plain {a : α} {rest : List α} (ha : ¬opens a ∧ ¬closes a)
      (h : Nested opens closes rest) : Nested opens closes (a :: rest)
  | pair {a b : α} {inner rest : List α} (ha : opens a) (hb : closes b)
      (hi : Nested opens closes inner) (h : Nested opens closes rest) :
      Nested opens closes (a :: (inner ++ b :: rest))

section

variable {α : Type} {opens closes : α → Prop} {own rest : List α}

theorem Nested.append (h : Nested opens closes own)
    (h' : Nested opens closes rest) : Nested opens closes (own ++ rest) := by
  induction h with
  | nil => exact h'
  | plain ha _ ih => exact .plain ha ih
  | pair ha hb hi _ _ ih =>
    rw [List.cons_append, List.append_assoc, List.cons_append]
    exact .pair ha hb hi ih

theorem Nested.of_forall (h : ∀ a ∈ own, ¬opens a ∧ ¬closes a) :
    Nested opens closes own := by
  induction own with
  | nil => exact .nil
  | cons a own ih =>
    obtain ⟨ha, hown⟩ := List.forall_mem_cons.1 h
    exact .plain ha (ih hown)

/-- Where an item stands in a list that has another one in its midst. -/
theorem split_append_cons {front back before after : List α} {a b : α}
    (h : front ++ a :: back = before ++ b :: after) :
    (∃ rest, front = before ++ b :: rest) ∨ (before = front ∧ b = a) ∨
      ∃ rest, before = front ++ a :: rest ∧ back = rest ++ b :: after := by
  rcases List.append_eq_append_iff.1 h with
    ⟨more, rfl, hm⟩ | ⟨more, rfl, hm⟩
  · cases more with
    | nil =>
      cases hm
      exact .inr (.inl ⟨List.append_nil front, rfl⟩)
    | cons c more =>
      cases hm
      exact .inr (.inr ⟨more, rfl, rfl⟩)
  · cases more with
    | nil =>
      cases hm
      exact .inr (.inl ⟨(List.append_nil before).symm, rfl⟩)
    | cons c more =>
      cases hm
      exact .inl ⟨more, rfl⟩

end

/-- The braces of tokens are closed in the order of their nesting. -/
abbrev Tokens.Braced (ts : Tokens) : Prop :=
  Nested (fun t => t.value = .mark .leftBrace)
    (fun t => t.value = .mark .rightBrace) ts

/-- The elements and blocks of events end in the order of their nesting. -/
abbrev Events.Bracketed (events : Events) : Prop :=
  Nested (fun e => e.value.Opens) (fun e => e.value.Closes) events

namespace Event

/-! ### Places -/

/-- The one event does not start or end behind the other one. -/
def NotBehind (e e' : Spanned Event) : Prop :=
  e.span.start ≤ e'.span.start ∧ e.span.stop ≤ e'.span.stop

/-- Events take parts of a run of tokens, one behind another. -/
structure Orderly (own : Tokens) (events : Events) : Prop where
  nonempty : ∀ e ∈ events, e.span.start < e.span.stop
  within : ∀ e ∈ events, ∃ t ∈ own, t.span.start ≤ e.span.start
  starts : ∀ e ∈ events, e.value ≠ .stop →
    ∃ t ∈ own, e.span.start = t.span.start
  stops : ∀ e ∈ events, ∃ t ∈ own, e.span.stop = t.span.stop
  ordered : events.Pairwise NotBehind

namespace Orderly

variable {own other : Tokens} {events events' : Events} {e : Spanned Event}

theorem nil (own : Tokens) : Orderly own [] :=
  ⟨nofun, nofun, nofun, nofun, .nil⟩

theorem single (hlt : e.span.start < e.span.stop)
    (hs : ∃ t ∈ own, e.span.start = t.span.start)
    (he : ∃ t ∈ own, e.span.stop = t.span.stop) : Orderly own [e] where
  nonempty := List.forall_mem_singleton.2 hlt
  within := by
    obtain ⟨t, ht, h⟩ := hs
    exact List.forall_mem_singleton.2 ⟨t, ht, Nat.le_of_eq h.symm⟩
  starts := List.forall_mem_singleton.2 fun _ => hs
  stops := List.forall_mem_singleton.2 he
  ordered := List.pairwise_singleton _ _

/-- Events of later tokens start and end later. -/
theorem append (h : Orderly own events) (h' : Orderly other events')
    (hp : Tokens.Placed (own ++ other)) :
    Orderly (own ++ other) (events ++ events') := by
  have hleft {p : Spanned Token → Prop} :
      (∃ t ∈ own, p t) → ∃ t ∈ own ++ other, p t := fun ⟨t, ht, hx⟩ =>
    ⟨t, List.mem_append_left other ht, hx⟩
  have hright {p : Spanned Token → Prop} :
      (∃ t ∈ other, p t) → ∃ t ∈ own ++ other, p t := fun ⟨t, ht, hx⟩ =>
    ⟨t, List.mem_append_right own ht, hx⟩
  constructor
  · exact List.forall_mem_append.2 ⟨h.nonempty, h'.nonempty⟩
  · exact List.forall_mem_append.2
      ⟨fun e he => hleft (h.within e he), fun e he => hright (h'.within e he)⟩
  · exact List.forall_mem_append.2
      ⟨fun e he hv => hleft (h.starts e he hv),
        fun e he hv => hright (h'.starts e he hv)⟩
  · exact List.forall_mem_append.2
      ⟨fun e he => hleft (h.stops e he), fun e he => hright (h'.stops e he)⟩
  · refine List.pairwise_append.2 ⟨h.ordered, h'.ordered, fun e he e' he' => ?_⟩
    obtain ⟨t, ht, hstop⟩ := h.stops e he
    obtain ⟨t', ht', hstart⟩ := h'.within e' he'
    have hle := (List.pairwise_append.1 hp.ordered).2.2 t ht t' ht'
    have hlt := h.nonempty e he
    have hlt' := h'.nonempty e' he'
    constructor <;> omega

end Orderly

open Tokens (Placed Spans Braced)

variable {ts rest own : Tokens} {events : Events} {span : Span}

/-- A span over tokens starts and ends with one of them, and is not empty. -/
theorem bounds_of_spans (hs : own.Spans span) (hp : Placed (own ++ rest)) :
    span.start < span.stop ∧ (∃ t ∈ own, span.start = t.span.start) ∧
      ∃ t ∈ own, span.stop = t.span.stop := by
  obtain ⟨⟨first, hf, hstart⟩, ⟨last, hl, hstop⟩, -⟩ := hs
  have hfirst := List.mem_of_head? hf
  have hlast := List.mem_of_getLast? hl
  refine ⟨?_, ⟨first, hfirst, hstart⟩, last, hlast, hstop⟩
  have hlt := hp.nonempty first (List.mem_append_left rest hfirst)
  obtain ⟨others, rfl⟩ := List.head?_eq_some_iff.1 hf
  rcases List.mem_cons.1 hlast with rfl | hmem
  · omega
  · have hle := Placed.stop_le hp (List.mem_append_left rest hmem)
    omega

theorem Orderly.of_spans {e : Spanned Event} (hs : own.Spans e.span)
    (hp : Placed (own ++ rest)) : Orderly own [e] := by
  obtain ⟨hlt, hstart, hstop⟩ := bounds_of_spans hs hp
  exact .single hlt hstart hstop

/-- An element that ends with its header ends in the last byte of that. -/
theorem Orderly.bare {typeWord : Spanned String}
    {name : Option (Spanned String)} (hs : own.Spans span)
    (hp : Placed (own ++ rest)) :
    Orderly own [⟨.start typeWord name, span⟩, ⟨.stop, span.lastByte⟩] := by
  obtain ⟨hlt, hstart, hstop⟩ := bounds_of_spans hs hp
  obtain ⟨t, ht, he⟩ := hstart
  have hle : span.start ≤ span.lastByte.start := Nat.le_sub_one_of_lt hlt
  have hlast : span.lastByte.start < span.lastByte.stop :=
    Nat.sub_one_lt (Nat.ne_zero_of_lt hlt)
  constructor
  · exact List.forall_mem_cons.2 ⟨hlt, List.forall_mem_singleton.2 hlast⟩
  · exact List.forall_mem_cons.2 ⟨⟨t, ht, Nat.le_of_eq he.symm⟩,
      List.forall_mem_singleton.2 ⟨t, ht, he ▸ hle⟩⟩
  · exact List.forall_mem_cons.2 ⟨fun _ => ⟨t, ht, he⟩,
      List.forall_mem_singleton.2 fun hv => absurd rfl hv⟩
  · exact List.forall_mem_cons.2 ⟨hstop, List.forall_mem_singleton.2 hstop⟩
  · exact List.pairwise_pair.2 ⟨hle, Nat.le_refl _⟩

/-- The events of brackets, told of what comes before the opening brace, of the
body, and of the closing brace. -/
theorem Orderly.brackets {head body own : Tokens} {opening : Span}
    {closing : Spanned Token} {first last : Spanned Event}
    {within events : Events} (hh : Orderly head [first])
    (hb : Orderly body within) (hl : last.span = closing.span)
    (ho : Orderly own events)
    (hp : Placed (head ++ ⟨.mark .leftBrace, opening⟩ ::
      (body ++ closing :: own))) :
    Orderly (head ++ ⟨.mark .leftBrace, opening⟩ :: (body ++ closing :: own))
      (first :: (within ++ last :: events)) := by
  have hclosing : Orderly [closing] [last] := by
    have hlt := hp.of_append.of_cons.of_append.nonempty closing (.head _)
    rw [← hl] at hlt
    exact .single hlt ⟨closing, .head _, by rw [hl]⟩ ⟨closing, .head _, by rw [hl]⟩
  have hbehind := hclosing.append ho hp.of_append.of_cons.of_append
  have hinner := hb.append hbehind hp.of_append.of_cons
  exact hh.append ((nil [⟨.mark .leftBrace, opening⟩]).append hinner
    hp.of_append) hp

/-- A part of the tokens has events in its order. -/
theorem Laid.orderly (h : Laid ts events rest) (hp : ts.Placed) :
    ∃ own, ts = own ++ rest ∧ Orderly own events := by
  induction h with
  | nil rest => exact ⟨[], rfl, .nil []⟩
  | @pass t ts rest events _ _ ih =>
    obtain ⟨own, rfl, ho⟩ := ih hp.of_cons
    refine ⟨t :: own, rfl, ?_⟩
    exact (Orderly.nil [t]).append ho (hp.left rest)
  | @word run ts rest event events _ hs _ ih =>
    obtain ⟨own, rfl, ho⟩ := ih hp.of_append
    rw [← List.append_assoc] at hp
    refine ⟨run ++ own, (List.append_assoc _ _ _).symm, ?_⟩
    exact (Orderly.of_spans hs (hp.left rest)).append ho (hp.left rest)
  | @bare typeWord name span ts rest events hs _ _ ih =>
    obtain ⟨own, rfl, ho⟩ := ih hp.of_append
    rw [← List.append_assoc] at hp
    refine ⟨headerTokens typeWord name ++ own,
      (List.append_assoc _ _ _).symm, ?_⟩
    exact (Orderly.bare hs (hp.left rest)).append ho (hp.left rest)
  | @element typeWord name span opening closing inner ts rest within events
      hs _ _ ihi ih =>
    obtain ⟨body, rfl, hbody⟩ := ihi hp.of_append.of_cons
    obtain ⟨own, rfl, ho⟩ := ih hp.of_append.of_cons.of_append.of_cons
    have hheader := Orderly.of_spans (e := ⟨.start typeWord name, span⟩) hs hp
    refine ⟨headerTokens typeWord name ++ ⟨.mark .leftBrace, opening⟩ ::
      (body ++ ⟨.mark .rightBrace, closing⟩ :: own), by simp, ?_⟩
    exact hheader.brackets hbody rfl ho
      (Placed.left rest (by simpa using hp))
  | @block name span opening closing children inner ts rest within events
      _ _ ihi ih =>
    obtain ⟨body, rfl, hbody⟩ := ihi hp.of_cons.of_cons
    obtain ⟨own, rfl, ho⟩ := ih hp.of_cons.of_cons.of_append.of_cons
    have hfeature := Orderly.of_spans (e := ⟨.blockStart ⟨name, span⟩, span⟩)
      (Tokens.spans_single (t := ⟨.identifier name, span⟩) (by simp)) hp
    refine ⟨⟨.identifier name, span⟩ :: ⟨.mark .leftBrace, opening⟩ ::
      (body ++ ⟨.mark .rightBrace, closing⟩ :: own), by simp, ?_⟩
    exact hfeature.brackets hbody rfl ho
      (Placed.left rest (by simpa using hp))

/-! ### Brackets -/

/-- Brackets of tokens and of events go together. -/
theorem Laid.nested (h : Laid ts events rest) :
    ∃ own, ts = own ++ rest ∧ own.Braced ∧ events.Bracketed := by
  induction h with
  | nil rest => exact ⟨[], rfl, .nil, .nil⟩
  | @pass t ts rest events ht _ ih =>
    obtain ⟨own, rfl, ho, he⟩ := ih
    exact ⟨t :: own, rfl, .plain ht ho, he⟩
  | @word run ts rest event events hv hs _ ih =>
    obtain ⟨own, rfl, ho, he⟩ := ih
    exact ⟨run ++ own, (List.append_assoc _ _ _).symm,
      (Nested.of_forall hs.plain).append ho, .plain hv he⟩
  | @bare typeWord name span ts rest events hs _ _ ih =>
    obtain ⟨own, rfl, ho, he⟩ := ih
    exact ⟨headerTokens typeWord name ++ own, (List.append_assoc _ _ _).symm,
      (Nested.of_forall hs.plain).append ho, .pair trivial trivial .nil he⟩
  | @element typeWord name span opening closing inner ts rest within events
      hs _ _ ihi ih =>
    obtain ⟨body, rfl, hbody, hwithin⟩ := ihi
    obtain ⟨own, rfl, ho, he⟩ := ih
    refine ⟨headerTokens typeWord name ++ ⟨.mark .leftBrace, opening⟩ ::
      (body ++ ⟨.mark .rightBrace, closing⟩ :: own), by simp, ?_,
      .pair trivial trivial hwithin he⟩
    exact (Nested.of_forall hs.plain).append (.pair rfl rfl hbody ho)
  | @block name span opening closing children inner ts rest within events
      _ _ ihi ih =>
    obtain ⟨body, rfl, hbody, hwithin⟩ := ihi
    obtain ⟨own, rfl, ho, he⟩ := ih
    refine ⟨⟨.identifier name, span⟩ :: ⟨.mark .leftBrace, opening⟩ ::
      (body ++ ⟨.mark .rightBrace, closing⟩ :: own), by simp, ?_,
      .pair trivial trivial hwithin he⟩
    exact .plain (by simp) (.pair rfl rfl hbody ho)

/-- The tokens of an element, with those behind it: the header, and the body if
a brace follows. -/
inductive ElementTokens (typeWord : Spanned String)
    (name : Option (Spanned String)) : Tokens → Tokens → Prop
  | bare {back : Tokens} (hb : next? back ≠ some (.mark .leftBrace)) :
      ElementTokens typeWord name (headerTokens typeWord name) back
  | body {opening closing : Span} {inner back : Tokens} (hi : inner.Braced) :
      ElementTokens typeWord name (headerTokens typeWord name ++
        ⟨.mark .leftBrace, opening⟩ ::
          (inner ++ [⟨.mark .rightBrace, closing⟩])) back

/-- An event closes what was opened before, in the last byte of an element or
with the brace of a block. -/
inductive Ending (ts : Tokens) (before : Events) (e : Spanned Event) : Prop
  | element {typeWord : Spanned String} {name : Option (Spanned String)}
      {span : Span} {outer inner : Events} {front elementTokens back : Tokens}
      {last : Spanned Token}
      (hv : e.value = .stop)
      (hb : before = outer ++ ⟨.start typeWord name, span⟩ :: inner)
      (hi : inner.Bracketed)
      (ht : ts = front ++ (elementTokens ++ back))
      (ho : ElementTokens typeWord name elementTokens back)
      (hl : elementTokens.getLast? = some last)
      (hstop : e.span.stop = last.span.stop)
      (hbyte : e.span.stop = e.span.start + 1)
  | block {name : String} {span opening : Span} {children : Nat}
      {outer inner : Events} {front body back : Tokens}
      (hv : e.value = .blockEnd ⟨name, span⟩ children)
      (hb : before = outer ++ ⟨.blockStart ⟨name, span⟩, span⟩ :: inner)
      (hi : inner.Bracketed)
      (ht : ts = front ++ ⟨.identifier name, span⟩ ::
        ⟨.mark .leftBrace, opening⟩ ::
          (body ++ ⟨.mark .rightBrace, e.span⟩ :: back))
      (ho : body.Braced)

/-- Whatever comes before leaves an ending as it is. -/
theorem Ending.behind {before before' : Events} {ts' : Tokens}
    {e : Spanned Event} (h : Ending ts before e) (own : Tokens)
    (events : Events) (ht : ts' = own ++ ts) (hb : before' = events ++ before) :
    Ending ts' before' e := by
  cases h with
  | element hv hb' hi ht' ho hl hstop hbyte =>
    rw [ht', ← List.append_assoc] at ht
    rw [hb', ← List.append_assoc] at hb
    exact .element hv hb hi ht ho hl hstop hbyte
  | block hv hb' hi ht' ho =>
    rw [ht', ← List.append_assoc] at ht
    rw [hb', ← List.append_assoc] at hb
    exact .block hv hb hi ht ho

/-- Endings of events that stand between brackets or behind them. -/
theorem Ending.of_brackets {first last e : Spanned Event} (within : Events)
    {events before after : Events} (hf : ¬first.value.Closes)
    (he : first :: (within ++ last :: events) = before ++ e :: after)
    (hc : e.value.Closes)
    (hwithin : ∀ before after, within = before ++ e :: after →
      Ending ts (first :: before) e)
    (hlast : e = last → Ending ts (first :: within) e)
    (hbehind : ∀ before after, events = before ++ e :: after →
      Ending ts (first :: (within ++ last :: before)) e) :
    Ending ts before e := by
  cases before with
  | nil =>
    cases he
    exact absurd hc hf
  | cons c before =>
    obtain ⟨rfl, hback⟩ := List.cons.inj he
    rcases split_append_cons hback with ⟨more, hsplit⟩ | ⟨rfl, rfl⟩ |
      ⟨more, rfl, hsplit⟩
    · exact hwithin before more hsplit
    · exact hlast rfl
    · exact hbehind more after hsplit

/-- Every event that closes something is an ending. -/
theorem Laid.ends (h : Laid ts events rest) (hp : ts.Placed)
    {before after : Events} {e : Spanned Event}
    (he : events = before ++ e :: after) (hc : e.value.Closes) :
    Ending ts before e := by
  induction h generalizing before after with
  | nil rest => simp at he
  | @pass t ts rest events _ _ ih =>
    exact (ih hp.of_cons he).behind [t] [] rfl rfl
  | @word run ts rest event events hv _ _ ih =>
    cases before with
    | nil =>
      cases he
      exact absurd hc hv.2
    | cons c before =>
      obtain ⟨rfl, hback⟩ := List.cons.inj he
      exact (ih hp.of_append hback).behind run [event] rfl rfl
  | @bare typeWord name span ts rest events hs hb _ ih =>
    refine .of_brackets [] id he hc (by simp) ?_ ?_
    · rintro rfl
      obtain ⟨last, hlast, hstop⟩ := hs.stop
      obtain ⟨hlt, -⟩ := bounds_of_spans hs hp
      refine .element rfl (List.nil_append _).symm .nil
        (List.nil_append _).symm (.bare hb) hlast hstop ?_
      simp only [Span.lastByte]
      omega
    · intro before after he
      exact (ih hp.of_append he).behind (headerTokens typeWord name)
        [⟨.start typeWord name, span⟩, ⟨.stop, span.lastByte⟩] rfl rfl
  | @element typeWord name span opening closing inner ts rest within events
      hs hi _ ihi ih =>
    obtain ⟨body, rfl, hbody, hwithin⟩ := hi.nested
    -- the end of the element is the brace, which is one byte
    have hbyte := hp.of_append.of_cons.of_append.brace _ (.head _) rfl
    refine .of_brackets within id he hc ?_ ?_ ?_
    · intro before after he
      exact (ihi hp.of_append.of_cons he).behind
        (headerTokens typeWord name ++ [⟨.mark .leftBrace, opening⟩]) [_]
        (List.append_cons _ _ _) rfl
    · rintro rfl
      let last : Spanned Token := ⟨.mark .rightBrace, closing⟩
      let element := headerTokens typeWord name ++
        ⟨.mark .leftBrace, opening⟩ :: (body ++ [last])
      have helement : headerTokens typeWord name ++
          ⟨.mark .leftBrace, opening⟩ :: (body ++ last :: ts) =
          [] ++ (element ++ ts) := by
        simp [element]
      have hlast : element.getLast? = some last := by
        simp only [element]
        rw [← List.cons_append, ← List.append_assoc, List.getLast?_concat]
      exact .element rfl (List.nil_append _).symm hwithin helement
        (.body hbody) hlast rfl hbyte
    · intro before after he
      refine (ih hp.of_append.of_cons.of_append.of_cons he).behind
        (headerTokens typeWord name ++ ⟨.mark .leftBrace, opening⟩ ::
          (body ++ [⟨.mark .rightBrace, closing⟩]))
        (⟨.start typeWord name, span⟩ :: (within ++ [⟨.stop, closing⟩]))
        (by simp) (by simp)
  | @block name span opening closing children inner ts rest within events
      hi _ ihi ih =>
    obtain ⟨body, rfl, hbody, hwithin⟩ := hi.nested
    refine .of_brackets within id he hc ?_ ?_ ?_
    · intro before after he
      exact (ihi hp.of_cons.of_cons he).behind [_, _] [_] rfl rfl
    · rintro rfl
      exact .block rfl (List.nil_append _).symm hwithin
        (List.nil_append _).symm hbody
    · intro before after he
      refine (ih hp.of_cons.of_cons.of_append.of_cons he).behind
        (⟨.identifier name, span⟩ :: ⟨.mark .leftBrace, opening⟩ ::
          (body ++ [⟨.mark .rightBrace, closing⟩]))
        (⟨.blockStart ⟨name, span⟩, span⟩ ::
          (within ++ [⟨.blockEnd ⟨name, span⟩ children, closing⟩]))
        (by simp) (by simp)

/-! ### Events of a text -/

/-- Events of a text come in the order of it. -/
structure InSourceOrder (text : List Char) (tokens : Tokens)
    (events : Events) : Prop where
  nonempty : ∀ e ∈ events, e.span.start < e.span.stop
  inside : ∀ e ∈ events, e.span.stop ≤ Token.byteLength text
  /-- An event ends where a token ends. -/
  stops : ∀ e ∈ events, ∃ t ∈ tokens, e.span.stop = t.span.stop
  /-- An event starts where a token starts, but for the end of an element. -/
  starts : ∀ e ∈ events, e.value ≠ .stop →
    ∃ t ∈ tokens, e.span.start = t.span.start
  /-- Neither the starts nor the ends go back. -/
  ordered : events.Pairwise NotBehind
  /-- Whatever stands between two events, as between the start of an element and
  its end, lies between the start of the first and the end of the second. -/
  between : ∀ before first inner last after,
    events = before ++ first :: (inner ++ last :: after) →
      ∀ e ∈ inner, first.span.start ≤ e.span.start ∧
        e.span.stop ≤ last.span.stop
  bracketed : events.Bracketed
  endings : ∀ before e after, events = before ++ e :: after →
    e.value.Closes → Ending tokens before e

theorem between_of_ordered {first last : Spanned Event}
    {before inner after : Events}
    (h : (before ++ first :: (inner ++ last :: after)).Pairwise NotBehind) :
    ∀ e ∈ inner, first.span.start ≤ e.span.start ∧
      e.span.stop ≤ last.span.stop := by
  intro e he
  obtain ⟨hfirst, hinner⟩ := List.pairwise_cons.1 (List.pairwise_append.1 h).2.1
  have hlast := (List.pairwise_append.1 hinner).2.2 e he last (.head _)
  exact ⟨(hfirst e (List.mem_append_left _ he)).1, hlast.2⟩

/-- The tokens of a text are at their places. -/
theorem placed_of_scan {source : String} {tokens : Tokens}
    (h : Token.scan source = .ok tokens) : tokens.Placed := by
  have ht := Token.tiled_of_scan h
  refine ⟨ht.start_lt_stop, ht.ordered, fun t hm hv => ?_⟩
  obtain ⟨front, part, after, -, hstart, hstop, hs⟩ := ht.stands t hm
  have hdenotes := hs.denotes
  rw [hv] at hdenotes
  rw [hstart, hstop, hdenotes.text_of_mark, Token.byteLength_append]
  rfl

/-- The events of a text are laid on its tokens. -/
theorem laid_of_ofSource {source : String} {events : Events}
    (h : ofSource source = .ok events) :
    ∃ tokens, Token.scan source = .ok tokens ∧ Laid tokens events [] := by
  obtain ⟨tokens, tree, hs, ht, rfl⟩ := ofSource_eq_ok_iff.1 h
  have hgrammar : Grammar.Items True tokens tree.items [] :=
    Parser.items_sound (SourceTree.ofTokens_eq_ok.1 ht)
  exact ⟨tokens, hs, hgrammar.laid trivial (placed_of_scan hs)⟩

/-- **Events come in the order of the text.** -/
theorem ofSource_inSourceOrder {source : String} {events : Events}
    (h : ofSource source = .ok events) :
    ∃ tokens, Token.scan source = .ok tokens ∧
      InSourceOrder source.toList tokens events := by
  obtain ⟨tokens, hs, hlaid⟩ := laid_of_ofSource h
  have hp := placed_of_scan hs
  obtain ⟨own, hown, horder⟩ := hlaid.orderly hp
  obtain ⟨-, -, -, hbracketed⟩ := hlaid.nested
  rw [List.append_nil] at hown
  subst hown
  refine ⟨tokens, hs, horder.nonempty, fun e he => ?_, horder.stops,
    horder.starts, horder.ordered, ?_, hbracketed, ?_⟩
  · obtain ⟨t, hm, hstop⟩ := horder.stops e he
    obtain ⟨front, part, after, htext, -, hend, -⟩ :=
      (Token.tiled_of_scan hs).stands t hm
    rw [hstop, hend, ← List.nil_append source.toList, htext,
      ← List.append_assoc, Token.byteLength_append _ after]
    exact Nat.le_add_right _ _
  · rintro before first inner last after hsplit
    exact between_of_ordered (hsplit ▸ horder.ordered)
  · intro before e after hsplit hc
    exact hlaid.ends hp hsplit hc

/-- A block with an element that ends in its name, and a slot behind it. -/
theorem ofSource_inSourceOrder_block :
    let source := "a \x7b b \x7b c d \x7d e = 1 \x7d"
    ∃ events tokens, ofSource source = .ok events ∧
      events.map (fun e => (e.span.start, e.span.stop)) =
        [(0, 1), (4, 5), (8, 11), (10, 11), (12, 13), (14, 19), (20, 21)] ∧
      Token.scan source = .ok tokens ∧
      InSourceOrder source.toList tokens events := by
  intro source
  have hk : (ofSource source).toOption.map (fun events =>
      events.map fun e => (e.span.start, e.span.stop)) =
      some [(0, 1), (4, 5), (8, 11), (10, 11), (12, 13), (14, 19),
        (20, 21)] := by
    decide +kernel
  cases h : ofSource source with
  | error diagnostics =>
    rw [h] at hk
    cases hk
  | ok events =>
    rw [h] at hk
    obtain ⟨tokens, hs, ho⟩ := ofSource_inSourceOrder h
    exact ⟨events, tokens, rfl, Option.some.inj hk, hs, ho⟩

end Event

end ModelText
