import ModelText.Proofs.Tree.Brackets
import ModelText.Proofs.Tree.Grammar
import Mathlib.Data.List.Basic

/-!
# How events lie on tokens

Every event takes a run of tokens: a word, a header, an assignment, or a brace
that closes. `Event.Laid` says it of a part of the tokens and the events told of
it, one rule for each way in which an event meets tokens, so that parts can be
put one behind another. An element without a body ends inside of its header; any
other element and every block end at the brace that closes them.

Whatever the grammar derives is laid like this. Spans are put together by unions
while a tree is read, so this needs tokens that stand as they do in a text, one
behind another; then a union goes from the first token to the last.
-/

namespace ModelText

open Tokens (next?)

/-! ### Tokens at their places -/

/-- Tokens stand as they do in a text. -/
structure Tokens.Placed (ts : Tokens) : Prop where
  nonempty : ∀ t ∈ ts, t.span.start < t.span.stop
  ordered : ts.Pairwise fun t t' => t.span.stop ≤ t'.span.start
  /-- A brace that closes is a single byte. -/
  brace : ∀ t ∈ ts, t.value = .mark .rightBrace →
    t.span.stop = t.span.start + 1

/-- No brace opens or closes. -/
def Tokens.Plain (ts : Tokens) : Prop :=
  ∀ t ∈ ts, t.value ≠ .mark .leftBrace ∧ t.value ≠ .mark .rightBrace

/-- The span takes a run of tokens, from the start of the first to the end of the
last, without any brace. -/
structure Tokens.Spans (own : Tokens) (span : Span) : Prop where
  start : ∃ t, own.head? = some t ∧ span.start = t.span.start
  stop : ∃ t, own.getLast? = some t ∧ span.stop = t.span.stop
  plain : own.Plain

namespace Tokens

variable {ts own between other : Tokens} {t : Spanned Token} {span span' : Span}

theorem Placed.of_append (h : Placed (own ++ ts)) : Placed ts where
  nonempty t ht := h.nonempty t (List.mem_append_right own ht)
  ordered := (List.pairwise_append.1 h.ordered).2.1
  brace t ht := h.brace t (List.mem_append_right own ht)

theorem Placed.of_cons (h : Placed (t :: ts)) : Placed ts :=
  of_append (show Placed ([t] ++ ts) from h)

theorem Placed.left (behind : Tokens) (h : Placed (own ++ behind)) :
    Placed own where
  nonempty t ht := h.nonempty t (List.mem_append_left behind ht)
  ordered := (List.pairwise_append.1 h.ordered).1
  brace t ht := h.brace t (List.mem_append_left behind ht)

/-- What comes later ends later. -/
theorem Placed.stop_le (h : Placed (t :: ts)) {t' : Spanned Token}
    (ht : t' ∈ ts) : t.span.stop ≤ t'.span.stop := by
  have hle := List.rel_of_pairwise_cons h.ordered ht
  have hlt := h.nonempty t' (List.mem_cons_of_mem t ht)
  omega

theorem plain_cons : Plain (t :: ts) ↔
    (t.value ≠ .mark .leftBrace ∧ t.value ≠ .mark .rightBrace) ∧ Plain ts :=
  List.forall_mem_cons

theorem Plain.append (h : Plain own) (h' : Plain other) :
    Plain (own ++ other) :=
  List.forall_mem_append.2 ⟨h, h'⟩

theorem spans_single
    (h : t.value ≠ .mark .leftBrace ∧ t.value ≠ .mark .rightBrace) :
    Spans [t] t.span :=
  ⟨⟨t, rfl, rfl⟩, ⟨t, rfl, rfl⟩, List.forall_mem_singleton.2 h⟩

/-- The union of two spans takes everything from the one to the other. -/
theorem Spans.union (behind : Tokens) (h : Spans own span)
    (h' : Spans other span') (hb : Plain between)
    (hp : Placed (own ++ (between ++ (other ++ behind)))) :
    Spans (own ++ (between ++ other)) (span.union span') := by
  obtain ⟨⟨first, hf, hstart⟩, ⟨last, hl, hstop⟩, hplain⟩ := h
  obtain ⟨⟨first', hf', hstart'⟩, ⟨last', hl', hstop'⟩, hplain'⟩ := h'
  have hfirst := List.mem_of_head? hf
  have hlast := List.mem_of_getLast? hl
  have hfirst' := List.mem_of_head? hf'
  have hlast' := List.mem_of_getLast? hl'
  have hbefore : ∀ a ∈ own, ∀ b ∈ other, a.span.stop ≤ b.span.start := by
    intro a ha b hb
    have hmem := List.mem_append_right between (List.mem_append_left behind hb)
    exact (List.pairwise_append.1 hp.ordered).2.2 a ha b hmem
  refine ⟨⟨first, ?_, ?_⟩, ⟨last', ?_, ?_⟩, hplain.append (hb.append hplain')⟩
  · rw [List.head?_append, hf, Option.some_or]
  · have hle := hbefore first hfirst first' hfirst'
    have hlt := hp.nonempty first (List.mem_append_left _ hfirst)
    rw [Span.start_union]
    omega
  · rw [← List.append_assoc, List.getLast?_append, hl', Option.some_or]
  · have hle := hbefore last hlast last' hlast'
    have hlt := hp.of_append.of_append.nonempty last'
      (List.mem_append_left behind hlast')
    rw [Span.stop_union]
    omega

end Tokens

/-! ### Events on tokens -/

namespace Event

/-- The event opens a bracket. -/
def Opens : Event → Prop
  | .start _ _ | .blockStart _ => True
  | _ => False

/-- The event closes a bracket. -/
def Closes : Event → Prop
  | .stop | .blockEnd _ _ => True
  | _ => False

/-- The tokens of a header, from its type word on. -/
def headerTokens (typeWord : Spanned String) (name : Option (Spanned String)) :
    Tokens :=
  ⟨.identifier typeWord.value, typeWord.span⟩ ::
    (name.map fun n => ⟨.identifier n.value, n.span⟩).toList

/-- The events of a part of the tokens, up to those behind it. -/
inductive Laid : Tokens → Events → Tokens → Prop
  | nil (rest : Tokens) : Laid rest [] rest
  /-- No event is told of a word or mark on its own. -/
  | pass {t : Spanned Token} {ts rest : Tokens} {events : Events}
      (ht : t.value ≠ .mark .leftBrace ∧ t.value ≠ .mark .rightBrace)
      (h : Laid ts events rest) : Laid (t :: ts) events rest
  /-- An event that is no bracket takes a run of tokens. -/
  | word {own ts rest : Tokens} {event : Spanned Event} {events : Events}
      (he : ¬event.value.Opens ∧ ¬event.value.Closes)
      (hs : own.Spans event.span) (h : Laid ts events rest) :
      Laid (own ++ ts) (event :: events) rest
  /-- An element without a body ends with its header. -/
  | bare {typeWord : Spanned String} {name : Option (Spanned String)}
      {span : Span} {ts rest : Tokens} {events : Events}
      (hs : (headerTokens typeWord name).Spans span)
      (hb : next? ts ≠ some (.mark .leftBrace)) (h : Laid ts events rest) :
      Laid (headerTokens typeWord name ++ ts)
        (⟨.start typeWord name, span⟩ :: ⟨.stop, span.lastByte⟩ :: events) rest
  /-- An element with a body ends at its closing brace. -/
  | element {typeWord : Spanned String} {name : Option (Spanned String)}
      {span opening closing : Span} {inner ts rest : Tokens}
      {within events : Events} (hs : (headerTokens typeWord name).Spans span)
      (hi : Laid inner within (⟨.mark .rightBrace, closing⟩ :: ts))
      (h : Laid ts events rest) :
      Laid (headerTokens typeWord name ++ ⟨.mark .leftBrace, opening⟩ :: inner)
        (⟨.start typeWord name, span⟩ ::
          (within ++ ⟨.stop, closing⟩ :: events)) rest
  /-- A block ends at its closing brace. -/
  | block {name : String} {span opening closing : Span} {children : Nat}
      {inner ts rest : Tokens} {within events : Events}
      (hi : Laid inner within (⟨.mark .rightBrace, closing⟩ :: ts))
      (h : Laid ts events rest) :
      Laid (⟨.identifier name, span⟩ :: ⟨.mark .leftBrace, opening⟩ :: inner)
        (⟨.blockStart ⟨name, span⟩, span⟩ ::
          (within ++ ⟨.blockEnd ⟨name, span⟩ children, closing⟩ :: events)) rest

namespace Laid

variable {ts mid rest : Tokens} {events events' : Events}

/-- Parts are put one behind another. -/
theorem append (h : Laid ts events mid) (h' : Laid mid events' rest) :
    Laid ts (events ++ events') rest := by
  induction h with
  | nil => exact h'
  | pass ht _ ih => exact .pass ht (ih h')
  | word he hs _ ih => exact .word he hs (ih h')
  | bare hs hb _ ih => exact .bare hs hb (ih h')
  | element hs hi _ _ ih =>
    rw [List.cons_append, List.append_assoc, List.cons_append]
    exact .element hs hi (ih h')
  | block hi _ _ ih =>
    rw [List.cons_append, List.append_assoc, List.cons_append]
    exact .block hi (ih h')

/-- What is behind the part is an end of the tokens. -/
theorem suffix (h : Laid ts events rest) : rest <:+ ts := by
  induction h with
  | nil => exact List.suffix_refl _
  | pass _ _ ih => exact ih.trans (List.suffix_cons _ _)
  | word _ _ _ ih => exact ih.trans (List.suffix_append _ _)
  | bare _ _ _ ih => exact ih.trans (List.suffix_append _ _)
  | element _ _ _ hi ih =>
    exact ((ih.trans (List.suffix_cons _ _)).trans hi).trans
      ((List.suffix_cons _ _).trans (List.suffix_append _ _))
  | block _ _ hi ih =>
    exact ((ih.trans (List.suffix_cons _ _)).trans hi).trans
      ((List.suffix_cons _ _).trans (List.suffix_cons _ _))

theorem of_plain {own : Tokens} (h : own.Plain) : Laid (own ++ rest) [] rest := by
  induction own with
  | nil => exact .nil rest
  | cons t own ih =>
    obtain ⟨ht, hown⟩ := Tokens.plain_cons.1 h
    exact .pass ht (ih hown)

/-- The type word of an element is one of the tokens. -/
theorem mem_of_start (h : Laid ts events rest) {word : Spanned String}
    {name : Option (Spanned String)} {span : Span}
    (hm : ⟨.start word name, span⟩ ∈ events) :
    ⟨.identifier word.value, word.span⟩ ∈ ts := by
  induction h with
  | nil => cases hm
  | pass _ _ ih => exact List.mem_cons_of_mem _ (ih hm)
  | word he _ _ ih =>
    rcases List.mem_cons.1 hm with rfl | hm
    · exact absurd trivial he.1
    · exact List.mem_append_right _ (ih hm)
  | bare _ _ _ ih =>
    simp only [List.mem_cons] at hm
    rcases hm with hm | hm | hm
    · cases hm
      exact List.mem_append_left _ (.head _)
    · cases hm
    · exact List.mem_append_right _ (ih hm)
  | element _ hi _ ihi ih =>
    simp only [List.mem_cons, List.mem_append] at hm
    rcases hm with hm | hm | hm | hm
    · cases hm
      exact List.mem_append_left _ (.head _)
    · exact List.mem_append_right _ (List.mem_cons_of_mem _ (ihi hm))
    · cases hm
    · exact List.mem_append_right _ (List.mem_cons_of_mem _
        (hi.suffix.subset (List.mem_cons_of_mem _ (ih hm))))
  | block hi _ ihi ih =>
    simp only [List.mem_cons, List.mem_append] at hm
    rcases hm with hm | hm | hm | hm
    · cases hm
    · exact List.mem_cons_of_mem _ (List.mem_cons_of_mem _ (ihi hm))
    · cases hm
    · exact List.mem_cons_of_mem _ (List.mem_cons_of_mem _
        (hi.suffix.subset (List.mem_cons_of_mem _ (ih hm))))

theorem placed (h : Laid ts events rest) (hp : ts.Placed) : rest.Placed := by
  obtain ⟨own, rfl⟩ := h.suffix
  exact hp.of_append

end Laid

end Event

/-! ### What the grammar derives -/

namespace Grammar

open Event (Laid headerTokens)
open Tokens (Placed Spans Plain spans_single plain_cons)

variable {greedy : Prop} {ts rest : Tokens}

theorem OptionalMark.plain {m : Mark} (h : OptionalMark greedy m ts rest)
    (hm : m ≠ .leftBrace ∧ m ≠ .rightBrace) :
    ∃ own, ts = own ++ rest ∧ own.Plain := by
  cases h with
  | taken span => exact ⟨[⟨.mark m, span⟩], rfl, by simpa [Plain] using hm⟩
  | omitted => exact ⟨[], rfl, nofun⟩

theorem OptionalMark.laid {m : Mark} (h : OptionalMark greedy m ts rest)
    (hm : m ≠ .leftBrace ∧ m ≠ .rightBrace) : Laid ts [] rest := by
  obtain ⟨own, rfl, hplain⟩ := h.plain hm
  exact .of_plain hplain

mutual

theorem Literal.spans {ts rest : Tokens}
    {value : Spanned ModelText.Literal} :
    Literal greedy ts value rest → ts.Placed →
      ∃ own, ts = own ++ rest ∧ own.Spans value.span
  | .simple _ _ hs, _ => by
    refine ⟨[_], rfl, spans_single ?_⟩
    cases hs <;> simp
  | @Literal.record _ opening closing _ _ rest' h, hp => by
    obtain ⟨inner, rfl, hplain⟩ := h.plain hp.of_cons
    have hopening : Spans [⟨.mark .recordOpen, opening⟩] opening :=
      spans_single (by simp)
    have hclosing : Spans [⟨.mark .rightParen, closing⟩] closing :=
      spans_single (by simp)
    refine ⟨_, ?_, hopening.union rest' hclosing hplain hp⟩
    simp

theorem Fields.plain {ts rest : Tokens} {fields : List Field} :
    Fields greedy ts fields rest → ts.Placed →
      ∃ own, ts = own ++ rest ∧ own.Plain
  | .nil _, _ => ⟨[], rfl, nofun⟩
  | @Fields.cons _ name span span' sign _ _ _ _ _ _ hs hv hc h, hp => by
    obtain ⟨value, rfl, hvalue⟩ := hv.spans hp.of_cons.of_cons
    obtain ⟨comma, rfl, hcomma⟩ := hc.plain (by simp)
    obtain ⟨others, rfl, hothers⟩ :=
      h.plain hp.of_cons.of_cons.of_append.of_append
    have hsign : sign ≠ .leftBrace ∧ sign ≠ .rightBrace := by
      rcases hs with rfl | rfl <;> simp
    refine ⟨⟨.identifier name, span⟩ :: ⟨.mark sign, span'⟩ ::
      (value ++ (comma ++ others)), by simp, ?_⟩
    rw [plain_cons, plain_cons]
    exact ⟨by simp, by simpa using hsign,
      hvalue.plain.append (hcomma.append hothers)⟩

end

theorem PathTail.spans {names : List (Spanned String)}
    (h : PathTail ts names rest) {own : Tokens} {span : Span}
    (ho : own.Spans span) (hp : Placed (own ++ ts)) :
    ∃ tail, ts = tail ++ rest ∧ Spans (own ++ tail)
      (names.foldl (fun span name => span.union name.span) span) := by
  induction h generalizing own span with
  | nil => exact ⟨[], rfl, by rwa [List.append_nil]⟩
  | @cons dot place name names ts rest _ ih =>
    have hdot : Plain [⟨.mark .dot, dot⟩] := by simp [Plain]
    have hname : Spans [⟨.identifier name, place⟩] place :=
      spans_single (by simp)
    have hjoined := ho.union ts hname hdot hp
    obtain ⟨tail, rfl, htail⟩ := ih hjoined (by simpa using hp)
    refine ⟨⟨.mark .dot, dot⟩ :: ⟨.identifier name, place⟩ :: tail, rfl, ?_⟩
    simpa using htail

theorem Path.spans {path : Spanned (List String)} (h : Path ts path rest)
    (hp : ts.Placed) : ∃ own, ts = own ++ rest ∧ own.Spans path.span := by
  cases h with
  | @intro first span others ts rest h =>
    have hfirst : Spans [⟨.identifier first, span⟩] span :=
      spans_single (by simp)
    obtain ⟨tail, rfl, htail⟩ := h.spans hfirst hp
    exact ⟨⟨.identifier first, span⟩ :: tail, rfl, htail⟩

/-- An event that is no bracket makes up a part on its own. -/
theorem laid_event {own : Tokens} {event : Event} {span : Span}
    (he : ¬event.Opens ∧ ¬event.Closes) (hs : own.Spans span) :
    Laid (own ++ rest) [⟨event, span⟩] rest :=
  .word he hs (.nil rest)

theorem ModifierNames.laid {names : List (Spanned String)}
    (h : ModifierNames greedy ts names rest) :
    Laid ts (names.map fun tag => ⟨.modifier tag.value, tag.span⟩) rest := by
  induction h with
  | nil => exact .nil _
  | @cons name span names ts mid rest hc _ ih =>
    have hname : Laid (⟨.identifier name, span⟩ :: ts)
        [⟨.modifier name, span⟩] ts :=
      laid_event ⟨id, id⟩ (spans_single (by simp))
    exact hname.append ((hc.laid (by simp)).append ih)

theorem Header.laid {modifiers : List (Spanned String)}
    {typeWord : Spanned String} (h : Header greedy ts modifiers typeWord rest) :
    Laid ts (modifiers.map fun tag => ⟨.modifier tag.value, tag.span⟩)
      (⟨.identifier typeWord.value, typeWord.span⟩ :: rest) := by
  cases h with
  | plain => exact .nil _
  | modified _ h =>
    refine .pass (by simp) ?_
    rw [← List.append_nil (List.map _ _)]
    exact h.laid.append (.pass (by simp) (.nil _))

/-- A header takes its type word and its name. -/
theorem OptionalName.spans {typeWord : Spanned String}
    {name : Option (Spanned String)} (h : OptionalName greedy ts name rest)
    (hp : Placed (⟨.identifier typeWord.value, typeWord.span⟩ :: ts)) :
    ⟨.identifier typeWord.value, typeWord.span⟩ :: ts =
        headerTokens typeWord name ++ rest ∧
      (headerTokens typeWord name).Spans (headerSpan typeWord name) := by
  have hword : Spans [⟨.identifier typeWord.value, typeWord.span⟩]
      typeWord.span := spans_single (by simp)
  cases h with
  | taken name span =>
    have hname : Spans [⟨.identifier name, span⟩] span :=
      spans_single (by simp)
    have hnone : Plain [] := nofun
    exact ⟨rfl, hword.union rest hname hnone hp⟩
  | omitted =>
    refine ⟨rfl, ?_⟩
    have hself : headerSpan typeWord none = typeWord.span := by
      simp [headerSpan, Span.union]
    rw [hself]
    exact hword

theorem lastByte_eq {s t : Span} (h : s.stop = t.stop)
    (ht : t.stop = t.start + 1) : s.lastByte = t := by
  obtain ⟨start, stop, _⟩ := t
  simp only at h ht
  simp [Span.lastByte, h, ht]

/-- A name, a mark and what the name is given make up one event. -/
theorem laid_assignment {name : String} {span span' place : Span} {sign : Mark}
    {own rest : Tokens} {event : Event}
    (hs : sign ≠ .leftBrace ∧ sign ≠ .rightBrace) (ho : own.Spans place)
    (he : ¬event.Opens ∧ ¬event.Closes)
    (hp : Placed (⟨.identifier name, span⟩ :: ⟨.mark sign, span'⟩ ::
      (own ++ rest))) :
    Laid (⟨.identifier name, span⟩ :: ⟨.mark sign, span'⟩ :: (own ++ rest))
      [⟨event, span.union place⟩] rest := by
  have hname : Spans [⟨.identifier name, span⟩] span := spans_single (by simp)
  have hsign : Plain [⟨.mark sign, span'⟩] := by simpa [Plain] using hs
  exact laid_event he (hname.union rest ho hsign hp)

mutual

theorem Members.laid {ts rest : Tokens} {ms : List ModelText.Member} :
    Members greedy ts ms rest → greedy → ts.Placed →
      Laid ts (memberEvents ms) rest
  | .nil _, _, _ => .nil _
  | .cons hm hs h, hg, hp => by
    have hmember := hm.laid hg hp
    have hmark := hs.laid (by simp)
    have hothers := h.laid hg (hmark.placed (hmember.placed hp))
    rw [memberEvents_cons]
    exact hmember.append (hmark.append hothers)

theorem Member.laid {ts rest : Tokens} {m : ModelText.Member} :
    Member greedy ts m rest → greedy → ts.Placed →
      Laid ts (memberEvents [m]) rest
  | .slot h, _, hp => by
    obtain ⟨own, rfl, hvalue⟩ := h.spans hp.of_cons.of_cons
    exact laid_assignment (by simp) hvalue ⟨id, id⟩ hp
  | .link h, _, hp => by
    obtain ⟨own, rfl, hpath⟩ := h.spans hp.of_cons.of_cons
    exact laid_assignment (by simp) hpath ⟨id, id⟩ hp
  | .value _ h, _, hp => by
    obtain ⟨own, rfl, hvalue⟩ := h.spans hp.of_cons.of_cons
    exact laid_assignment (by simp) hvalue ⟨id, id⟩ hp
  | @Member.block _ _ _ opening closing _ _ _ h, hg, hp => by
    have hinner := h.laid hg hp.of_cons.of_cons
    have hclosing := (hinner.placed hp.of_cons.of_cons).brace _ (.head _) rfl
    have hlast : (opening.union closing).stop = closing.stop :=
      Nat.max_eq_right (hp.of_cons.stop_le (hinner.suffix.subset (.head _)))
    rw [memberEvents, memberEvents, lastByte_eq hlast hclosing]
    exact .block hinner (.nil _)

theorem Declarations.laid {ts rest : Tokens}
    {ds : List ModelText.Declaration} :
    Declarations greedy ts ds rest → greedy → ts.Placed →
      Laid ts (declarationEvents ds) rest
  | .nil _, _, _ => .nil _
  | .cons hd h, hg, hp => by
    have hfirst := hd.laid hg hp
    rw [declarationEvents]
    exact hfirst.append (h.laid hg (hfirst.placed hp))

theorem OptionalBody.laid {ts rest : Tokens} {typeWord : Spanned String}
    {name : Option (Spanned String)} {members : List ModelText.Member}
    {braces : Option Span} :
    OptionalBody greedy ts members braces rest → greedy →
      (headerTokens typeWord name).Spans (headerSpan typeWord name) →
      Placed (headerTokens typeWord name ++ ts) →
      Laid (headerTokens typeWord name ++ ts)
        (⟨.start typeWord name, headerSpan typeWord name⟩ ::
          (memberEvents members ++ [⟨.stop,
            (braces.elim (headerSpan typeWord name)
              typeWord.span.union).lastByte⟩])) rest
  | .omitted _ hb, hg, hs, _ => .bare hs (hb hg) (.nil _)
  | @OptionalBody.taken _ opening closing _ _ _ h, hg, hs, hp => by
    have hinner := h.laid hg hp.of_append.of_cons
    have hclosing :=
      (hinner.placed hp.of_append.of_cons).brace _ (.head _) rfl
    have hmem := hinner.suffix.subset (List.mem_cons_self)
    have hopening := hp.of_append.stop_le hmem
    have hword := Placed.stop_le hp
      (List.mem_append_right _ (List.mem_cons_of_mem _ hmem))
    have hlast : (typeWord.span.union (opening.union closing)).stop =
        closing.stop := by
      simp only [Span.stop_union]
      simp only at hopening hword
      omega
    rw [Option.elim_some, lastByte_eq hlast hclosing]
    exact .element hs hinner (.nil _)

theorem Declaration.laid {ts rest : Tokens} {d : ModelText.Declaration} :
    Declaration greedy ts d rest → greedy → ts.Placed → Laid ts d.events rest
  | .intro hh hn hb hs, hg, hp => by
    have hmodifiers := hh.laid
    have hbehind := hmodifiers.placed hp
    obtain ⟨hsplit, hheader⟩ := hn.spans hbehind
    rw [hsplit] at hmodifiers hbehind
    have hbody := hb.laid hg hheader hbehind
    rw [Declaration.events]
    rw [← List.append_nil (_ :: _)]
    exact hmodifiers.append (hbody.append (hs.laid (by simp)))

end

theorem Item.laid {item : ModelText.Item} (h : Item greedy ts item rest)
    (hg : greedy) (hp : ts.Placed) : Laid ts item.events rest := by
  cases h with
  | language =>
    exact .pass (by simp) (laid_event ⟨id, id⟩ (spans_single (by simp)))
  | importPath h =>
    obtain ⟨own, rfl, hpath⟩ := h.spans hp.of_cons
    exact .pass (by simp) (laid_event ⟨id, id⟩ hpath)
  | importText =>
    exact .pass (by simp) (laid_event ⟨id, id⟩ (spans_single (by simp)))
  | declaration h => exact h.laid hg hp

theorem Items.laid {items : List ModelText.Item}
    (h : Items greedy ts items rest) (hg : greedy) (hp : ts.Placed) :
    Laid ts (items.flatMap ModelText.Item.events) rest := by
  induction h with
  | nil => exact .nil _
  | cons hi hs _ ih =>
    have hitem := hi.laid hg hp
    have hmark := hs.laid (by simp)
    rw [List.flatMap_cons]
    exact hitem.append (hmark.append (ih (hmark.placed (hitem.placed hp))))

end Grammar

end ModelText
