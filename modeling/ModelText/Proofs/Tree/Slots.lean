import ModelText.Proofs.Tree.Brackets
import ModelText.Proofs.Tree.Complete
import ModelText.Proofs.Tree.Places

/-!
# Where the literals of slots are written

The literal of every slot is read from some place of the tokens on, and so are
the literals of the fields of a record, at any depth. A literal that is no
record is a single token. So whatever is given to a slot stands in the text, at
the place that the literal carries.
-/

namespace ModelText

open Tokens (next? next?_eq_some)
open ModelText.Parser

/-- The literal is read from some place of the tokens on. -/
def Tokens.Writes (all : Tokens) (value : Spanned Literal) : Prop :=
  ∃ ts out, ts <:+ all ∧ Reads (literal ts) value out

/-- The tokens write the literal of a slot. -/
def Event.WrittenBy (all : Tokens) : Event → Prop
  | .slot _ value => all.Writes value
  | _ => True

namespace Parser

variable {α : Type} {all ts rest : Tokens}

theorem Leaves.suffix {step : ParseResult α ts} {value : α}
    (h : Leaves all step) (hr : Reads step value rest) : rest <:+ all := by
  obtain ⟨hle, hr⟩ := hr
  exact h.of_ok hr

theorem ReadsHeader.suffix {modifiers : List (Spanned String)}
    {typeWord : Spanned String} (h : ReadsHeader ts modifiers typeWord rest)
    (hs : ts <:+ all) : rest <:+ all := by
  obtain ⟨hlt, h⟩ := h
  exact leaves_header? hs h

theorem suffix_optionalMark (m : Mark) (h : ts <:+ all) :
    (optionalMark m ts).rest <:+ all := by
  obtain ⟨rest, hle, hm, hs⟩ := optionalMark_suffix m h
  rw [hm]
  exact hs

/-! ### The literals of slots -/

mutual

theorem written_declarations {ts out : Tokens} {ds : List Declaration}
    (h : Reads (declarations ts) ds out) (hs : ts <:+ all) :
    ∀ e ∈ declarationEvents ds, e.value.WrittenBy all := by
  obtain ⟨modifiers, typeWord, rest, d, rest', others, hh, hd, ho, rfl⟩ |
    ⟨rfl, rfl, _⟩ := reads_declarations.1 h
  · have hlt := hh.length_lt
    have hle := hd.length_le
    have hrest := hh.suffix hs
    have hothers := written_declarations ho
      ((leaves_declarationRest _ _ rest hrest).suffix hd)
    rw [declarationEvents, List.forall_mem_append]
    exact ⟨written_declarationRest hd hrest, hothers⟩
  · exact nofun
termination_by ts.length
decreasing_by all_goals grind

theorem written_declarationRest {ts out : Tokens}
    {modifiers : List (Spanned String)} {typeWord : Spanned String}
    {d : Declaration}
    (h : Reads (declarationRest modifiers typeWord ts) d out)
    (hs : ts <:+ all) : ∀ e ∈ d.events, e.value.WrittenBy all := by
  have hle := (optionalIdentifier ts).length_le
  have hrest := suffix_optionalIdentifier hs
  have hmodifier : ∀ e ∈ modifiers.map fun tag =>
      (⟨.modifier tag.value, tag.span⟩ : Spanned Event),
      e.value.WrittenBy all :=
    List.forall_mem_map.2 fun _ _ => trivial
  obtain ⟨opening, rest', members, closing, rest'', hr, hm, rfl, rfl⟩ |
    ⟨hb, rfl, rfl⟩ := reads_declarationRest.1 h
  · rw [hr] at hle hrest
    have hmembers := written_members hm (suffix_of_cons hrest)
    rw [Declaration.events, List.forall_mem_append, List.forall_mem_cons,
      List.forall_mem_append, List.forall_mem_singleton]
    exact ⟨hmodifier, trivial, hmembers, trivial⟩
  · rw [Declaration.events, List.forall_mem_append, List.forall_mem_cons,
      List.forall_mem_append, List.forall_mem_singleton]
    exact ⟨hmodifier, trivial, nofun, trivial⟩
termination_by ts.length
decreasing_by all_goals grind

theorem written_members {ts out : Tokens} {ms : List Member}
    (h : Reads (members ts) ms out) (hs : ts <:+ all) :
    ∀ e ∈ memberEvents ms, e.value.WrittenBy all := by
  obtain ⟨name, span, rest, m, rest', others, rfl, hm, ho, rfl⟩ |
    ⟨rfl, rfl, _⟩ := reads_members.1 h
  · have hle := hm.length_le
    have hle' := length_optionalMark_le .semicolon rest'
    have hrest := suffix_of_cons hs
    have hothers := written_members ho (suffix_optionalMark _
      ((leaves_memberRest _ rest hrest).suffix hm))
    rw [memberEvents_cons, List.forall_mem_append]
    exact ⟨written_memberRest hm hrest, hothers⟩
  · exact nofun
termination_by ts.length
decreasing_by all_goals grind

theorem written_memberRest {ts out : Tokens} {name : Spanned String}
    {m : Member} (h : Reads (memberRest name ts) m out) (hs : ts <:+ all) :
    ∀ e ∈ memberEvents [m], e.value.WrittenBy all := by
  obtain ⟨sign, rest, value, rfl, hv, rfl⟩ |
    ⟨sign, first, span', rest, others, rfl, hp, rfl⟩ |
    ⟨sign, rest, value, rfl, hf, hv, rfl⟩ |
    ⟨opening, rest, ds, closing, rfl, hd, rfl⟩ := reads_memberRest.1 h
  · rw [memberEvents, memberEvents, List.forall_mem_singleton]
    exact ⟨rest, out, suffix_of_cons hs, hv⟩
  · rw [memberEvents, memberEvents, List.forall_mem_singleton]
    trivial
  · rw [memberEvents, memberEvents, List.forall_mem_singleton]
    exact ⟨rest, out, suffix_of_cons hs, hv⟩
  · have hblock := written_declarations hd (suffix_of_cons hs)
    rw [memberEvents, List.forall_mem_cons, List.forall_mem_append,
      memberEvents, List.forall_mem_singleton]
    exact ⟨trivial, hblock, trivial⟩
termination_by ts.length
decreasing_by all_goals grind

end

theorem written_items {ts out : Tokens} {is : List Item}
    (h : Reads (items ts) is out) (hs : ts <:+ all) :
    ∀ e ∈ is.flatMap Item.events, e.value.WrittenBy all := by
  by_cases hl : next? ts = some (.keyword .language)
  · obtain ⟨word, rest, rfl⟩ := next?_eq_some.1 hl
    obtain ⟨name, rest', others, rfl, ho, rfl⟩ := reads_items_language.1 h
    have hle := length_optionalMark_le .semicolon rest'
    have hothers := written_items ho (suffix_optionalMark _
      (suffix_of_cons (suffix_of_cons hs)))
    rw [List.flatMap_cons, List.forall_mem_append]
    exact ⟨List.forall_mem_singleton.2 trivial, hothers⟩
  by_cases hi : next? ts = some (.keyword .importUnit)
  · obtain ⟨word, rest, rfl⟩ := next?_eq_some.1 hi
    obtain ⟨name, rest', others, hu, ho, rfl⟩ := reads_items_importUnit.1 h
    have hle := hu.length_le
    have hle' := length_optionalMark_le .semicolon rest'
    have hothers := written_items ho (suffix_optionalMark _
      ((leaves_unitName (suffix_of_cons hs)).suffix hu))
    rw [List.flatMap_cons, List.forall_mem_append]
    exact ⟨List.forall_mem_singleton.2 trivial, hothers⟩
  obtain ⟨modifiers, typeWord, rest, d, rest', others, hh, hd, ho, rfl⟩ |
    ⟨rfl, rfl, _⟩ := (reads_items_declaration hl hi).1 h
  · have hlt := hh.length_lt
    have hle := hd.length_le
    have hle' := length_optionalMark_le .semicolon rest'
    have hrest := hh.suffix hs
    have hothers := written_items ho (suffix_optionalMark _
      ((leaves_declarationRest _ _ rest hrest).suffix hd))
    rw [List.flatMap_cons, List.forall_mem_append]
    exact ⟨written_declarationRest hd hrest, hothers⟩
  · exact nofun
termination_by ts.length
decreasing_by all_goals grind

/-! ### The literals of fields -/

theorem written_fields {ts out : Tokens} {fields : List Field}
    (h : Reads (recordFields ts) fields out) (hs : ts <:+ all) :
    ∀ field ∈ fields, all.Writes field.value := by
  obtain ⟨name, span, sign, span', rest, value, rest', others, rfl, _, hv, hf,
    rfl⟩ | ⟨rfl, rfl, _⟩ := reads_recordFields.1 h
  · have hle := hv.length_le
    have hle' := length_optionalMark_le .comma rest'
    have hrest := suffix_of_cons (suffix_of_cons hs)
    have hothers := written_fields hf
      (suffix_optionalMark _ ((leaves_literal rest hrest).suffix hv))
    exact List.forall_mem_cons.2 ⟨⟨rest, rest', hrest, hv⟩, hothers⟩
  · exact nofun
termination_by ts.length
decreasing_by all_goals grind

end Parser

namespace Tokens.Writes

variable {all : Tokens}

/-- The literal of a field of a record. -/
theorem field {fields : List Field} {span : Span}
    (h : all.Writes ⟨.record fields, span⟩) {field : Field}
    (hf : field ∈ fields) : all.Writes field.value := by
  obtain ⟨ts, out, hs, hr⟩ := h
  obtain ⟨opening, rest, inner, closing, rfl, hi, hv⟩ |
    ⟨token, place, content, rfl, hc, hv⟩ := reads_literal.1 hr
  · cases hv
    exact written_fields hi (suffix_of_cons hs) field hf
  · cases hv
    cases simpleLiteral?_eq_some.1 hc

/-- A literal that is no record is a single token. -/
theorem token {value : Spanned Literal} (h : all.Writes value)
    (hn : ∀ fields, value.value ≠ .record fields) :
    ∃ token, ⟨token, value.span⟩ ∈ all ∧
      Grammar.SimpleLiteral token value.value := by
  obtain ⟨ts, out, hs, hr⟩ := h
  obtain ⟨opening, rest, inner, closing, rfl, hi, rfl⟩ |
    ⟨token, place, content, rfl, hc, rfl⟩ := reads_literal.1 hr
  · exact absurd rfl (hn inner)
  · exact ⟨token, hs.subset (.head _), simpleLiteral?_eq_some.1 hc⟩

end Tokens.Writes

/-- The tokens of a text write the literals of all slots. -/
theorem Event.writtenBy_of_ofSource {source : String} {events : Events}
    (h : ofSource source = .ok events) :
    ∃ tokens, Token.scan source = .ok tokens ∧
      ∀ e ∈ events, e.value.WrittenBy tokens := by
  obtain ⟨tokens, tree, hs, ht, rfl⟩ := ofSource_eq_ok_iff.1 h
  exact ⟨tokens, hs, Parser.written_items (SourceTree.ofTokens_eq_ok.1 ht)
    (List.suffix_refl tokens)⟩

end ModelText
