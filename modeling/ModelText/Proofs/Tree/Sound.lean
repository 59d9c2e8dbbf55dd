import ModelText.Proofs.Tree.Reading

/-!
# What the parser reads is derived by the grammar

Whatever a step reads, the grammar derives from the same tokens, and leaves the
same rest. The parser takes what is optional wherever it may stand, so this is
true of both readings of the grammar. The proofs follow the steps: each step
reads no more than is left, and goes on behind a token it has taken.
-/

namespace ModelText

namespace Parser

open Tokens (next?)
open Grammar (OptionalMark OptionalName PathTail Path SimpleLiteral Fields
  ModifierNames OptionalBody Members Declarations Items)

variable {greedy : Prop}

theorem optionalMark_sound (m : Mark) (ts : Tokens) :
    OptionalMark greedy m ts (optionalMark m ts).rest := by
  cases ts with
  | nil => exact .omitted _ (by simp)
  | cons t ts =>
    obtain ⟨token, span⟩ := t
    by_cases h : token = .mark m
    · subst h
      simpa [optionalMark, Parsed.read] using OptionalMark.taken span ts
    · simpa [optionalMark, h, Parsed.read] using
        OptionalMark.omitted _ (by simp [h])

theorem optionalIdentifier_sound (ts : Tokens) :
    OptionalName greedy ts (optionalIdentifier ts).value
      (optionalIdentifier ts).rest := by
  rw [optionalIdentifier.eq_def]
  split
  · exact .taken _ _ _
  · next h =>
    refine .omitted _ fun _ name hn => ?_
    obtain ⟨span, rest, rfl⟩ := Tokens.next?_eq_some.1 hn
    exact h _ _ _ rfl

theorem length_optionalMark_le (m : Mark) (ts : Tokens) :
    (optionalMark m ts).rest.length ≤ ts.length :=
  (optionalMark m ts).length_le

theorem pathTail_sound {ts out : Tokens} {within : Option Expectation}
    {names : List (Spanned String)} (h : Reads (pathTail within ts) names out) :
    PathTail ts names out := by
  obtain ⟨dot, name, span, rest, others, rfl, ht, rfl⟩ | ⟨rfl, rfl, _⟩ :=
    reads_pathTail.1 h
  · exact .cons (pathTail_sound ht)
  · exact .nil _
termination_by ts.length
decreasing_by all_goals grind

theorem simpleLiteral?_eq_some {token : Token} {value : Literal} :
    simpleLiteral? token = some value ↔ SimpleLiteral token value := by
  constructor
  · intro h
    cases token with
    | keyword word => cases word <;> cases h <;> constructor
    | mark => cases h
    | _ =>
      cases h
      constructor
  · intro h
    cases h <;> rfl

mutual

theorem literal_sound {ts out : Tokens} {value : Spanned Literal}
    (h : Reads (literal ts) value out) :
    Grammar.Literal greedy ts value out := by
  obtain ⟨opening, rest, fields, closing, rfl, hf, rfl⟩ |
    ⟨token, span, content, rfl, hc, rfl⟩ := reads_literal.1 h
  · exact .record (recordFields_sound hf)
  · exact .simple _ _ (simpleLiteral?_eq_some.1 hc)
termination_by ts.length
decreasing_by all_goals grind

theorem recordFields_sound {ts out : Tokens} {fields : List Field}
    (h : Reads (recordFields ts) fields out) : Fields greedy ts fields out := by
  obtain ⟨name, span, sign, span', rest, value, rest', others, rfl, hs, hv, hf,
    rfl⟩ | ⟨rfl, rfl, _⟩ := reads_recordFields.1 h
  · have hle := hv.length_le
    have hle' := length_optionalMark_le .comma rest'
    exact .cons hs (literal_sound hv) (optionalMark_sound _ _)
      (recordFields_sound hf)
  · exact .nil _
termination_by ts.length
decreasing_by all_goals grind

end

theorem modifierNames_sound (ts : Tokens) :
    ModifierNames greedy ts (modifierNames ts).value
      (modifierNames ts).rest := by
  by_cases h : ∃ name, next? ts = some (.identifier name)
  · obtain ⟨name, h⟩ := h
    obtain ⟨span, rest, rfl⟩ := Tokens.next?_eq_some.1 h
    have hle := length_optionalMark_le .comma rest
    obtain ⟨hv, hr⟩ := modifierNames_cons name span rest
    rw [hv, hr]
    exact .cons (optionalMark_sound _ _) (modifierNames_sound _)
  · obtain ⟨hv, hr⟩ := modifierNames_of_ne fun name hn => h ⟨name, hn⟩
    rw [hv, hr]
    exact .nil _
termination_by ts.length
decreasing_by all_goals grind

theorem ReadsHeader.sound {ts out : Tokens} {modifiers : List (Spanned String)}
    {typeWord : Spanned String} (h : ReadsHeader ts modifiers typeWord out) :
    Grammar.Header greedy ts modifiers typeWord out := by
  obtain ⟨rfl, rfl⟩ | ⟨opening, tag, span, rest, closing, rfl, hr, rfl⟩ :=
    readsHeader_iff.1 h
  · exact .plain _ _ _
  · have hm : Grammar.ModifierNames greedy _ _ _ :=
      modifierNames_sound (⟨.identifier tag, span⟩ :: rest)
    rw [hr] at hm
    refine .modified ?_ hm
    rw [(modifierNames_cons tag span rest).1]
    exact List.cons_ne_nil _ _

mutual

theorem declarations_sound {ts out : Tokens} {ds : List Declaration}
    (h : Reads (declarations ts) ds out) : Declarations greedy ts ds out := by
  obtain ⟨modifiers, typeWord, rest, d, rest', others, hh, hd, ho, rfl⟩ |
    ⟨rfl, rfl, _⟩ := reads_declarations.1 h
  · have hlt := hh.length_lt
    have hle := hd.length_le
    exact .cons (declarationRest_sound hh hd) (declarations_sound ho)
  · exact .nil _
termination_by ts.length
decreasing_by all_goals grind

theorem declarationRest_sound {ts rest out : Tokens}
    {modifiers : List (Spanned String)} {typeWord : Spanned String}
    {d : Declaration}
    (hh : ReadsHeader ts modifiers typeWord rest)
    (h : Reads (declarationRest modifiers typeWord rest) d out) :
    Grammar.Declaration greedy ts d out := by
  have hle := (optionalIdentifier rest).length_le
  obtain ⟨opening, rest', members, closing, rest'', hr, hm, rfl, rfl⟩ |
    ⟨hb, rfl, rfl⟩ := reads_declarationRest.1 h
  · have hn : Grammar.OptionalName greedy _ _ _ :=
      optionalIdentifier_sound rest
    rw [hr] at hn hle
    exact .intro hh.sound hn (.taken (members_sound hm))
      (optionalMark_sound _ _)
  · exact .intro hh.sound (optionalIdentifier_sound _)
      (.omitted _ fun _ => hb) (optionalMark_sound _ _)
termination_by rest.length
decreasing_by all_goals grind

theorem members_sound {ts out : Tokens} {ms : List Member}
    (h : Reads (members ts) ms out) :
    Members greedy ts ms out := by
  obtain ⟨name, span, rest, m, rest', others, rfl, hm, ho, rfl⟩ |
    ⟨rfl, rfl, _⟩ := reads_members.1 h
  · have hle := hm.length_le
    have hle' := length_optionalMark_le .semicolon rest'
    exact .cons (memberRest_sound hm) (optionalMark_sound _ _)
      (members_sound ho)
  · exact .nil _
termination_by ts.length
decreasing_by all_goals grind

theorem memberRest_sound {ts out : Tokens} {name : String} {span : Span}
    {m : Member} (h : Reads (memberRest ⟨name, span⟩ ts) m out) :
    Grammar.Member greedy (⟨.identifier name, span⟩ :: ts) m out := by
  obtain ⟨sign, rest, value, rfl, hv, rfl⟩ |
    ⟨sign, first, span', rest, others, rfl, hp, rfl⟩ |
    ⟨sign, rest, value, rfl, hf, hv, rfl⟩ |
    ⟨opening, rest, ds, closing, rfl, hd, rfl⟩ := reads_memberRest.1 h
  · exact .slot (literal_sound hv)
  · exact .link (.intro (pathTail_sound hp))
  · have hl : Grammar.Literal greedy _ _ _ := literal_sound hv
    exact .value (hl.ne_identifier hf) hl
  · exact .block (declarations_sound hd)
termination_by ts.length
decreasing_by all_goals grind

end

theorem unitName_sound {ts out : Tokens} {word : Span} {name : Spanned String}
    (h : Reads (unitName ts) name out) :
    Grammar.Item greedy (⟨.keyword .importUnit, word⟩ :: ts)
      (.importUnit name) out := by
  obtain ⟨first, span, rest, others, rfl, hp, rfl⟩ |
    ⟨content, span, rfl, rfl⟩ := reads_unitName.1 h
  · exact .importPath (.intro (pathTail_sound hp))
  · exact .importText _ _ _ _

theorem items_sound {ts out : Tokens} {is : List Item}
    (h : Reads (items ts) is out) : Items greedy ts is out := by
  by_cases hl : next? ts = some (.keyword .language)
  · obtain ⟨word, rest, rfl⟩ := Tokens.next?_eq_some.1 hl
    obtain ⟨name, rest', others, rfl, ho, rfl⟩ := reads_items_language.1 h
    have hle := length_optionalMark_le .semicolon rest'
    exact .cons (.language _ _ _ _) (optionalMark_sound _ _) (items_sound ho)
  by_cases hi : next? ts = some (.keyword .importUnit)
  · obtain ⟨word, rest, rfl⟩ := Tokens.next?_eq_some.1 hi
    obtain ⟨name, rest', others, hn, ho, rfl⟩ := reads_items_importUnit.1 h
    have hle := hn.length_le
    have hle' := length_optionalMark_le .semicolon rest'
    exact .cons (unitName_sound hn) (optionalMark_sound _ _) (items_sound ho)
  obtain ⟨modifiers, typeWord, rest, d, rest', others, hh, hd, ho, rfl⟩ |
    ⟨rfl, rfl, _⟩ := (reads_items_declaration hl hi).1 h
  · have hlt := hh.length_lt
    have hle := hd.length_le
    have hle' := length_optionalMark_le .semicolon rest'
    exact .cons (.declaration (declarationRest_sound hh hd))
      (optionalMark_sound _ _) (items_sound ho)
  · exact .nil _
termination_by ts.length
decreasing_by all_goals grind

end Parser

end ModelText
