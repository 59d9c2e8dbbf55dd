import ModelText.Proofs.Token.Printing
import ModelText.Proofs.Tree.Displaced
import ModelText.Proofs.Tree.Slots

/-!
# Literals in writing are read back

`Literal.text` writes a literal in one fixed way: the fields of a record one
behind another, without commas, each with an equals sign. What it writes spells
the tokens of the literal, and from these the literal is read again, though
every part of it has another place now.

A literal is spelled only if all names in it are names. Those that come from a
text are, for the parser puts no name into a tree but those of the tokens.
-/

namespace ModelText

open Tokens (next? next?_eq_some)
open ModelText.Parser

/-! ### The tokens of a literal -/

namespace Literal

/-- A literal is another one, or a part of it at any depth. -/
inductive Contains : Literal → Literal → Prop
  | self (literal : Literal) : Contains literal literal
  | field {fields : List Field} {field : Field} {part : Literal}
      (hf : field ∈ fields) (h : Contains field.value.value part) :
      Contains (.record fields) part

mutual

/-- The tokens in which a literal is written. -/
def tokens : Literal → List Token
  | .integer value => [.integer value]
  | .decimal value => [.decimal value]
  | .boolean true => [.keyword .trueWord]
  | .boolean false => [.keyword .falseWord]
  | .string content => [.string content]
  | .identifier name => [.identifier name]
  | .record fields =>
    .mark .recordOpen :: (fieldTokens fields ++ [.mark .rightParen])

/-- The tokens in which the fields of a record are written. -/
def fieldTokens : List Field → List Token
  | [] => []
  | ⟨name, ⟨value, _⟩⟩ :: rest =>
    .identifier name.value :: .mark .equals ::
      (value.tokens ++ fieldTokens rest)

end

theorem tokens_subset_fieldTokens {fields : List Field} {field : Field}
    (h : field ∈ fields) : field.value.value.tokens ⊆ fieldTokens fields := by
  induction fields with
  | nil => cases h
  | cons first rest ih =>
    obtain ⟨name, value, span⟩ := first
    rw [fieldTokens]
    intro t ht
    refine .tail _ (.tail _ (List.mem_append.2 ?_))
    rcases List.mem_cons.1 h with rfl | h
    · exact .inl ht
    · exact .inr (ih h ht)

theorem Contains.tokens_subset {literal part : Literal}
    (h : literal.Contains part) : part.tokens ⊆ literal.tokens := by
  induction h with
  | self => exact List.Subset.refl _
  | field hf _ ih =>
    rw [tokens]
    intro t ht
    exact .tail _ (List.mem_append_left _
      (tokens_subset_fieldTokens hf (ih ht)))

mutual

/-- A decimal among the tokens is a part of the literal. -/
theorem contains_decimal {d : Decimal} :
    ∀ literal : Literal, .decimal d ∈ literal.tokens →
      literal.Contains (.decimal d)
  | .decimal _, h => by
    cases List.mem_singleton.1 h
    exact .self _
  | .integer _, h | .boolean true, h | .boolean false, h | .string _, h
  | .identifier _, h => by cases List.mem_singleton.1 h
  | .record fields, h => by
    rw [tokens] at h
    rcases List.mem_cons.1 h with h | h
    · cases h
    rcases List.mem_append.1 h with h | h
    · obtain ⟨field, hf, hc⟩ := exists_field_contains_decimal fields h
      exact .field hf hc
    · cases List.mem_singleton.1 h

theorem exists_field_contains_decimal {d : Decimal} :
    ∀ fields : List Field, .decimal d ∈ fieldTokens fields →
      ∃ field ∈ fields, field.value.value.Contains (.decimal d)
  | [], h => by cases h
  | ⟨name, ⟨value, span⟩⟩ :: rest, h => by
    rw [fieldTokens] at h
    rcases List.mem_cons.1 h with h | h
    · cases h
    rcases List.mem_cons.1 h with h | h
    · cases h
    rcases List.mem_append.1 h with h | h
    · exact ⟨_, .head _, contains_decimal value h⟩
    · obtain ⟨field, hf, hc⟩ := exists_field_contains_decimal rest h
      exact ⟨field, .tail _ hf, hc⟩

end

end Literal

/-! ### Names -/

/-- The names among the tokens are written as names. -/
def Tokens.Named (ts : Tokens) : Prop :=
  ∀ t ∈ ts, t.value.IsNamed

/-- The names in the literal of a slot are written as names. -/
def Event.IsNamed : Event → Prop
  | .slot _ value => ∀ t ∈ value.value.tokens, t.IsNamed
  | _ => True

theorem Tokens.Named.suffix {ts rest : Tokens} (h : Tokens.Named ts)
    (hs : rest <:+ ts) : Tokens.Named rest :=
  fun t ht => h t (hs.subset ht)

theorem Tokens.Named.of_cons {t : Spanned Token} {rest : Tokens}
    (h : Tokens.Named (t :: rest)) : Tokens.Named rest :=
  h.suffix (List.suffix_cons t rest)

namespace Parser

theorem tokens_of_simpleLiteral? {token : Token} {value : Literal}
    (h : simpleLiteral? token = some value) : value.tokens = [token] := by
  cases simpleLiteral?_eq_some.1 h <;> rfl

/-! No name is put into a literal that is not a token. -/

mutual

theorem named_literal {ts out : Tokens} {value : Spanned Literal}
    (h : Reads (literal ts) value out) (hn : ts.Named) :
    ∀ t ∈ value.value.tokens, t.IsNamed := by
  obtain ⟨opening, rest, fields, closing, rfl, hf, rfl⟩ |
    ⟨token, span, content, rfl, hc, rfl⟩ := reads_literal.1 h
  · have hfields := named_recordFields hf hn.of_cons
    rw [Literal.tokens, List.forall_mem_cons, List.forall_mem_append,
      List.forall_mem_singleton]
    exact ⟨trivial, hfields, trivial⟩
  · rw [tokens_of_simpleLiteral? hc, List.forall_mem_singleton]
    exact hn _ (.head _)
termination_by ts.length
decreasing_by all_goals grind

theorem named_recordFields {ts out : Tokens} {fields : List Field}
    (h : Reads (recordFields ts) fields out) (hn : ts.Named) :
    ∀ t ∈ Literal.fieldTokens fields, t.IsNamed := by
  obtain ⟨name, span, sign, span', rest, value, rest', others, rfl, hs, hv, hf,
    rfl⟩ | ⟨rfl, rfl, _⟩ := reads_recordFields.1 h
  · have hle := hv.length_le
    have hle' := length_optionalMark_le .comma rest'
    have hrest := hn.of_cons.of_cons
    have hvalue := named_literal hv hrest
    have hothers := named_recordFields hf (hrest.suffix (suffix_optionalMark _
      ((leaves_literal rest (List.suffix_refl rest)).suffix hv)))
    rw [Literal.fieldTokens, List.forall_mem_cons, List.forall_mem_cons,
      List.forall_mem_append]
    exact ⟨hn _ (.head _), trivial, hvalue, hothers⟩
  · exact nofun
termination_by ts.length
decreasing_by all_goals grind

end

end Parser

/-- The names in the literals of a text are names. -/
theorem Event.isNamed_of_ofSource {source : String} {events : Events}
    (h : ofSource source = .ok events) : ∀ e ∈ events, e.value.IsNamed := by
  obtain ⟨tokens, hs, hw⟩ := writtenBy_of_ofSource h
  have hn : Tokens.Named tokens := Token.isNamed_of_scan hs
  rintro ⟨event, span⟩ he
  cases event with
  | slot name value =>
    obtain ⟨ts, out, hsuffix, hr⟩ := hw _ he
    exact Parser.named_literal hr (hn.suffix hsuffix)
  | _ => trivial

/-! ### Spelling -/

namespace Literal

open ModelText.Token (Spells EndsWord endsWord_cons endsWord_space denotes_text)

theorem spells_simple {cs : List Char} {t : Token} {ts : List Token}
    {text : String} (h : text = t.text) (ht : t.IsExact) (hw : EndsWord cs)
    (hs : Spells cs ts) : Spells (text.toList ++ cs) (t :: ts) := by
  rw [h]
  exact .token (denotes_text ht) (fun _ => hw) hs

theorem spells_mark {cs : List Char} {ts : List Token} (m : Mark)
    (hs : Spells cs ts) : Spells (m.text.toList ++ cs) (.mark m :: ts) :=
  .token (.mark m) nofun hs

mutual

/-- What is written for a literal spells its tokens. -/
theorem spells_text {cs : List Char} {ts : List Token} :
    ∀ literal : Literal, (∀ t ∈ literal.tokens, t.IsExact) → EndsWord cs →
      Spells cs ts → Spells (literal.text.toList ++ cs) (literal.tokens ++ ts)
  | .integer _, h, hw, hs => spells_simple rfl (h _ (.head _)) hw hs
  | .decimal _, h, hw, hs => spells_simple rfl (h _ (.head _)) hw hs
  | .boolean true, h, hw, hs => spells_simple rfl (h _ (.head _)) hw hs
  | .boolean false, h, hw, hs => spells_simple rfl (h _ (.head _)) hw hs
  | .string _, h, hw, hs => spells_simple rfl (h _ (.head _)) hw hs
  | .identifier _, h, hw, hs => spells_simple rfl (h _ (.head _)) hw hs
  | .record fields, h, hw, hs => by
    rw [tokens, List.forall_mem_cons, List.forall_mem_append] at h
    have hfields := spells_fieldTexts fields h.2.1 hs
    simpa [text, tokens, Mark.text] using spells_mark .recordOpen hfields

/-- The fields of a record up to its closing parenthesis. -/
theorem spells_fieldTexts {cs : List Char} {ts : List Token} :
    ∀ fields : List Field, (∀ t ∈ fieldTokens fields, t.IsExact) →
      Spells cs ts →
      Spells ((" ".intercalate (fieldTexts fields)).toList ++ ')' :: cs)
        (fieldTokens fields ++ .mark .rightParen :: ts)
  | [], _, hs => spells_mark .rightParen hs
  | ⟨name, ⟨value, _⟩⟩ :: rest, h, hs => by
    rw [fieldTokens, List.forall_mem_cons, List.forall_mem_cons,
      List.forall_mem_append] at h
    obtain ⟨hname, -, hvalue, hrest⟩ := h
    have hfields := spells_fieldTexts rest hrest hs
    have hfield {cs : List Char} {ts : List Token} (hw : EndsWord cs)
        (hs : Spells cs ts) :
        Spells ((name.value ++ " = " ++ value.text).toList ++ cs)
          (.identifier name.value :: .mark .equals :: (value.tokens ++ ts)) := by
      have hsign := spells_mark .equals
        (spells_text value hvalue hw hs).space
      have hfirst : Spells (name.value.toList ++ ' ' :: '=' :: ' ' ::
          (value.text.toList ++ cs)) _ :=
        spells_simple rfl hname (endsWord_space _) hsign.space
      simpa using hfirst
    cases rest with
    | nil =>
      have hlast := hfield (endsWord_cons.2 rfl) hfields
      simpa only [fieldTexts, fieldTokens, String.intercalate_singleton,
        List.cons_append, List.append_assoc] using hlast
    | cons second rest =>
      have hmore := hfield (endsWord_space _) hfields.space
      have hne : fieldTexts (second :: rest) ≠ [] := by
        obtain ⟨_, _, _⟩ := second
        rw [fieldTexts]
        exact List.cons_ne_nil _ _
      rw [fieldTexts, String.intercalate_cons_of_ne_nil hne, fieldTokens]
      simpa using hmore

end

/-! ### Reading -/

theorem derives_simple {token : Token} {literal : Literal} {ts : Tokens}
    (hs : Grammar.SimpleLiteral token literal)
    (h : ts.map (·.value) = [token]) (out : Tokens) :
    ∃ value, Grammar.Literal False (ts ++ out) value out ∧
      value.value.unplaced = literal.unplaced := by
  obtain ⟨t, rfl, rfl⟩ := List.map_eq_singleton_iff.1 h
  exact ⟨⟨literal, t.span⟩, .simple t.span out hs, rfl⟩

mutual

/-- From the tokens of a literal the same literal is derived, at other
places. -/
theorem derives_tokens (out : Tokens) :
    ∀ (literal : Literal) (ts : Tokens), ts.map (·.value) = literal.tokens →
      ∃ value, Grammar.Literal False (ts ++ out) value out ∧
        value.value.unplaced = literal.unplaced
  | .integer value, _, h => derives_simple (.integer value) h out
  | .decimal value, _, h => derives_simple (.decimal value) h out
  | .boolean true, _, h => derives_simple .yes h out
  | .boolean false, _, h => derives_simple .no h out
  | .string content, _, h => derives_simple (.string content) h out
  | .identifier name, _, h => derives_simple (.identifier name) h out
  | .record fields, ts, h => by
    rw [tokens] at h
    obtain ⟨⟨_, opening⟩, rest, rfl, rfl, hrest⟩ := List.map_eq_cons_iff.1 h
    obtain ⟨inner, last, rfl, hf, hc⟩ := List.map_eq_append_iff.1 hrest
    obtain ⟨⟨_, closing⟩, rfl, rfl⟩ := List.map_eq_singleton_iff.1 hc
    obtain ⟨found, hd, hu⟩ := derives_fieldTokens
      (⟨.mark .rightParen, closing⟩ :: out) fields inner hf
    refine ⟨⟨.record found, opening.union closing⟩, ?_, ?_⟩
    · rw [List.cons_append, List.append_assoc]
      exact .record hd
    · rw [unplaced, unplaced, hu]

theorem derives_fieldTokens (out : Tokens) :
    ∀ (fields : List Field) (ts : Tokens),
      ts.map (·.value) = fieldTokens fields →
      ∃ found, Grammar.Fields False (ts ++ out) found out ∧
        unplacedFields found = unplacedFields fields
  | [], ts, h => by
    rw [List.map_eq_nil_iff.1 h]
    exact ⟨[], .nil out, rfl⟩
  | ⟨name, ⟨value, _⟩⟩ :: rest, ts, h => by
    rw [fieldTokens] at h
    obtain ⟨⟨_, span⟩, ts₁, rfl, rfl, h₁⟩ := List.map_eq_cons_iff.1 h
    obtain ⟨⟨_, span'⟩, ts₂, rfl, rfl, h₂⟩ := List.map_eq_cons_iff.1 h₁
    obtain ⟨first, others, rfl, hv, hf⟩ := List.map_eq_append_iff.1 h₂
    obtain ⟨found, hd, hu⟩ := derives_tokens (others ++ out) value first hv
    obtain ⟨more, hd', hu'⟩ := derives_fieldTokens out rest others hf
    refine ⟨⟨⟨name.value, span⟩, found⟩ :: more, ?_, ?_⟩
    · rw [List.cons_append, List.cons_append, List.append_assoc]
      exact .cons (.inl rfl) hd (.omitted _ False.elim) hd'
    · rw [unplacedFields, unplacedFields, hu, hu']
      rfl

end

end Literal

/-- The tokens of an element with one slot are read as such an element. -/
theorem SourceTree.ofTokens_slot (x opening s sign closing : Span)
    {ts : Tokens} {value : Spanned Literal}
    (h : Grammar.Literal False (ts ++ [⟨.mark .rightBrace, closing⟩]) value
      [⟨.mark .rightBrace, closing⟩]) :
    ofTokens (⟨.identifier "x", x⟩ :: ⟨.mark .leftBrace, opening⟩ ::
      ⟨.identifier "s", s⟩ :: ⟨.mark .equals, sign⟩ ::
      (ts ++ [⟨.mark .rightBrace, closing⟩])) =
      .ok ⟨[.declaration ⟨[], ⟨"x", x⟩, none, [.slot ⟨"s", s⟩ value],
        x.union (opening.union closing)⟩]⟩ := by
  have hslot := reads_memberRest.2 (.inl ⟨sign, _, value, rfl, h.reads,
    (rfl : Member.slot ⟨"s", s⟩ value = _)⟩)
  have hmembers := reads_members.2 (.inl ⟨"s", s, _, _, _, _, rfl, hslot,
    reads_members.2 (.inr ⟨rfl, rfl, nofun⟩), rfl⟩)
  have hend : Reads (Parser.items []) [] [] :=
    (reads_items_declaration (by simp) (by simp)).2 (.inr ⟨rfl, rfl, rfl⟩)
  exact ofTokens_eq_ok.2 ((reads_items_declaration (by simp) (by simp)).2 (.inl
    ⟨[], ⟨"x", x⟩, _, _, _, _, readsHeader_iff.2 (.inl ⟨rfl, rfl⟩),
      reads_declarationRest.2 (.inl ⟨opening, _, _, closing, _, rfl, hmembers,
        rfl, rfl⟩), hend, rfl⟩))

theorem Literal.spells_slot {literal : Literal}
    (h : ∀ t ∈ literal.tokens, t.IsExact) :
    Token.Spells ("x \x7b s = " ++ literal.text ++ " \x7d").toList
      (.identifier "x" :: .mark .leftBrace :: .identifier "s" ::
        .mark .equals :: (literal.tokens ++ [.mark .rightBrace])) := by
  have hx : Token.IsName "x" := by decide
  have hs : Token.IsName "s" := by decide
  have hbrace := spells_mark .rightBrace .nil
  have hvalue := spells_text literal h (Token.endsWord_space _) hbrace.space
  have hslot := Token.Spells.token hs.denotes (fun _ => Token.endsWord_space _)
    (spells_mark .equals hvalue.space).space
  have hall := Token.Spells.token hx.denotes (fun _ => Token.endsWord_space _)
    (spells_mark .leftBrace hslot.space).space
  simpa [Mark.text] using hall

/-- **Literals that are written are read back.** Take any literal that comes from
a text, on its own or as a part of a record, and holds no decimal. Where it is
written as the value of a slot, the slot gets this literal, but for the places of
its parts. -/
theorem Event.ofSource_literal_text {source : String} {events : Events}
    {name : Spanned String} {value : Spanned Literal} {span : Span}
    {literal : Literal} (h : ofSource source = .ok events)
    (hs : ⟨.slot name value, span⟩ ∈ events)
    (hl : value.value.Contains literal)
    (hd : ∀ d, ¬literal.Contains (.decimal d)) :
    ∃ x s found p₁ p₂ p₃,
      ofSource ("x \x7b s = " ++ literal.text ++ " \x7d") =
        .ok [⟨.start ⟨"x", x⟩ none, p₁⟩, ⟨.slot ⟨"s", s⟩ found, p₂⟩,
          ⟨.stop, p₃⟩] ∧
      found.value.unplaced = literal.unplaced := by
  have hexact : ∀ t ∈ literal.tokens, t.IsExact := by
    refine fun t ht => ⟨?_, ?_⟩
    · exact isNamed_of_ofSource h _ hs t (hl.tokens_subset ht)
    · rintro d rfl
      exact hd d (literal.contains_decimal ht)
  obtain ⟨ts, hscan, hts⟩ := Token.scan_of_spells (Literal.spells_slot hexact)
  obtain ⟨⟨_, x⟩, ts₁, rfl, rfl, h₁⟩ := List.map_eq_cons_iff.1 hts
  obtain ⟨⟨_, opening⟩, ts₂, rfl, rfl, h₂⟩ := List.map_eq_cons_iff.1 h₁
  obtain ⟨⟨_, s⟩, ts₃, rfl, rfl, h₃⟩ := List.map_eq_cons_iff.1 h₂
  obtain ⟨⟨_, sign⟩, ts₄, rfl, rfl, h₄⟩ := List.map_eq_cons_iff.1 h₃
  obtain ⟨inner, last, rfl, hinner, hlast⟩ := List.map_eq_append_iff.1 h₄
  obtain ⟨⟨_, closing⟩, rfl, rfl⟩ := List.map_eq_singleton_iff.1 hlast
  obtain ⟨found, hfound, hsame⟩ := literal.derives_tokens
    [⟨.mark .rightBrace, closing⟩] inner hinner
  have hevents : ofSource ("x \x7b s = " ++ literal.text ++ " \x7d") =
      .ok (SourceTree.events ⟨[.declaration ⟨[], ⟨"x", x⟩, none,
        [.slot ⟨"s", s⟩ found], x.union (opening.union closing)⟩]⟩) := by
    unfold ofSource SourceTree.ofSource
    rw [hscan]
    dsimp only
    rw [SourceTree.ofTokens_slot x opening s sign closing hfound]
    rfl
  exact ⟨x, s, found, _, _, _, hevents, hsame⟩

/-- The literal that a slot gets. -/
def Event.literal? : Event → Option Literal
  | .slot _ value => some value.value
  | _ => none

/-- A record in a record, with a string that has to be escaped, in a text that
writes them in another way. -/
theorem Event.ofSource_literal_text_record :
    let source :=
      "a \x7b b = #(c: #(d = \"\\u\x7b0a\x7d\", e: -7,) f = true) \x7d"
    ∃ events name value span, ofSource source = .ok events ∧
      ⟨.slot name value, span⟩ ∈ events ∧
      value.value.text = "#(c = #(d = \"\\n\" e = -7) f = true)" ∧
      ∃ x s found p₁ p₂ p₃,
        ofSource ("x \x7b s = " ++ value.value.text ++ " \x7d") =
          .ok [⟨.start ⟨"x", x⟩ none, p₁⟩, ⟨.slot ⟨"s", s⟩ found, p₂⟩,
            ⟨.stop, p₃⟩] ∧
        found.value.unplaced = value.value.unplaced := by
  intro source
  have hk : (((ofSource source).toOption.getD []).filterMap fun e =>
      e.value.literal?.map fun literal => (literal.tokens, literal.text)) =
      [([.mark .recordOpen, .identifier "c", .mark .equals, .mark .recordOpen,
        .identifier "d", .mark .equals, .string "\n", .identifier "e",
        .mark .equals, .integer (-7), .mark .rightParen, .identifier "f",
        .mark .equals, .keyword .trueWord, .mark .rightParen],
        "#(c = #(d = \"\\n\" e = -7) f = true)")] := by
    decide +kernel
  cases h : ofSource source with
  | error diagnostics =>
    rw [h] at hk
    cases hk
  | ok events =>
    rw [h] at hk
    obtain ⟨⟨e, span⟩, he, ht⟩ := List.mem_filterMap.1
      (hk ▸ List.mem_singleton_self _)
    obtain ⟨literal, hl, hx⟩ := Option.map_eq_some_iff.1 ht
    cases e with
    | slot name value =>
      cases hl
      obtain ⟨htokens, htext⟩ := Prod.mk.inj hx
      refine ⟨events, name, value, span, rfl, he, htext, ?_⟩
      refine ofSource_literal_text h he (.self _) fun d hd => ?_
      have hm := hd.tokens_subset (.head _)
      rw [htokens] at hm
      simp at hm
    | _ => cases hl

end ModelText
