import Mathlib.Logic.Relation
import ModelText.Proofs.Tree.Complete
import ModelText.Proofs.Tree.Reach

/-!
# What a step takes

A step of the parser sees one token ahead, so what it takes does not depend on
what comes later. This is shown of every part of a unit in the same way. A part
is *firm* if whatever a step takes of the tokens is derived by the grammar, or
can be completed to something that is, and if the step gets just as far with any
other tokens behind what it took, as long as they begin alike. Firm parts can be
put one behind another, so each step of the parser needs no more than the
equation that says how it goes on.
-/

namespace ModelText

namespace Parser

open Tokens (next? next?_eq_some)

variable {ts ts' rest : Tokens}

/-! ### Tokens that begin alike -/

/-- The parser cannot tell the tokens apart as long as it takes none of them. -/
structure Alike (ts ts' : Tokens) : Prop where
  /-- The same token comes next. -/
  next : next? ts' = next? ts
  /-- Where no declaration begins, none begins there either. -/
  header (h : header? ts = none) : header? ts' = none

theorem Alike.refl (ts : Tokens) : Alike ts ts :=
  ⟨rfl, id⟩

/-- The parser looks at two tokens at most. -/
theorem Alike.cons (t : Spanned Token) (h : next? ts' = next? ts) :
    Alike (t :: ts) (t :: ts') where
  next := rfl
  header hn := by
    obtain ⟨hw, hb⟩ := header?_eq_none.1 hn
    refine header?_eq_none.2 ⟨hw, ?_⟩
    rintro opening tag span rest he
    cases he
    obtain ⟨span', rest', rfl⟩ := next?_eq_some.1 (h.symm.trans rfl)
    exact hb _ _ _ _ rfl

theorem Alike.append (h : Alike ts ts') (taken : Tokens) :
    Alike (taken ++ ts) (taken ++ ts') := by
  induction taken with
  | nil => exact h
  | cons t taken ih => exact .cons t ih.next

/-- It looks at the second one behind an opening bracket only. -/
theorem Alike.of_next (h : next? ts' = next? ts)
    (hb : next? ts = some (.mark .leftBracket) → header? ts ≠ none) :
    Alike ts ts' where
  next := h
  header hn := by
    obtain ⟨hw, -⟩ := header?_eq_none.1 hn
    refine header?_eq_none.2 ⟨fun word => h ▸ hw word, ?_⟩
    rintro opening tag span rest rfl
    exact hb h.symm hn

/-! ### Firm parts -/

/-- A part of a unit. -/
structure Part where
  /-- How far the parser gets with it. -/
  reach : Tokens → Except Tokens Tokens
  /-- What the grammar derives for it, and leaves. -/
  derives : Tokens → Tokens → Prop
  /-- It can be written in front of anything. -/
  closes : ∃ more, ∀ out, derives (more ++ out) out

namespace Part

/-- One part behind another. -/
def andThen (p q : Part) : Part where
  reach ts := p.reach ts >>= q.reach
  derives := Relation.Comp p.derives q.derives
  closes := by
    obtain ⟨first, hp⟩ := p.closes
    obtain ⟨second, hq⟩ := q.closes
    refine ⟨first ++ second, fun out => ⟨second ++ out, ?_, hq out⟩⟩
    rw [List.append_assoc]
    exact hp _

/-- What is taken of the tokens belongs to the part, and is taken whatever
follows. -/
inductive Firm (p : Part) : Tokens → Prop
  /-- All of the part is taken. -/
  | leaves (taken rest : Tokens)
      (hr : ∀ rest', Alike rest rest' →
        p.reach (taken ++ rest') = .ok rest')
      (hd : ∀ out, p.derives (taken ++ out) out) : Firm p (taken ++ rest)
  /-- The part begins with what is taken, and could end with `more`. -/
  | stops (taken rest more : Tokens)
      (hr : ∀ rest', Alike rest rest' →
        p.reach (taken ++ rest') = .error rest')
      (hd : ∀ out, p.derives (taken ++ (more ++ out)) out) :
      Firm p (taken ++ rest)

namespace Firm

variable {p q : Part}

theorem stay (hr : ∀ ts', Alike ts ts' → p.reach ts' = .ok ts')
    (hd : ∀ out, p.derives out out) : p.Firm ts :=
  leaves [] ts hr hd

theorem fail (hr : ∀ ts', Alike ts ts' → p.reach ts' = .error ts') :
    p.Firm ts := by
  obtain ⟨more, hd⟩ := p.closes
  exact stops [] ts more hr hd

theorem one {t : Spanned Token} (hr : ∀ rest, p.reach (t :: rest) = .ok rest)
    (hd : ∀ out, p.derives (t :: out) out) : p.Firm (t :: rest) :=
  leaves [t] rest (fun rest' _ => hr rest') hd

/-- A part that goes on as another one behind its first tokens. -/
theorem commit (first : Tokens)
    (hr : ∀ rest', Alike rest rest' →
      p.reach (first ++ rest') = q.reach rest')
    (hd : ∀ ts out, q.derives ts out → p.derives (first ++ ts) out)
    (hq : q.Firm rest) : p.Firm (first ++ rest) := by
  cases hq with
  | leaves taken rest hr' hd' =>
    rw [← List.append_assoc]
    refine leaves _ _ (fun rest' h => ?_) (fun out => ?_)
    · rw [List.append_assoc, hr _ (h.append taken)]
      exact hr' rest' h
    · rw [List.append_assoc]
      exact hd _ _ (hd' out)
  | stops taken rest more hr' hd' =>
    rw [← List.append_assoc]
    refine stops _ _ more (fun rest' h => ?_) (fun out => ?_)
    · rw [List.append_assoc, hr _ (h.append taken)]
      exact hr' rest' h
    · rw [List.append_assoc]
      exact hd _ _ (hd' out)

/-- Behind a part that is read to its end, the second one goes on; and where the
first one stops, the second one can still be completed. -/
theorem andThen (hp : p.Firm ts)
    (hq : ∀ rest, rest.length ≤ ts.length → q.Firm rest) :
    (p.andThen q).Firm ts := by
  cases hp with
  | leaves taken rest hr hd =>
    refine commit taken (fun rest' h => ?_) (fun ts out h => ⟨ts, hd ts, h⟩)
      (hq rest (by simp))
    change p.reach _ >>= q.reach = _
    rw [hr rest' h]
    rfl
  | stops taken rest more hr hd =>
    obtain ⟨second, hs⟩ := q.closes
    refine stops taken rest (more ++ second) (fun rest' h => ?_)
      (fun out => ⟨second ++ out, ?_, hs out⟩)
    · change p.reach _ >>= q.reach = _
      rw [hr rest' h]
      rfl
    · rw [List.append_assoc]
      exact hd _

end Firm

/-! ### Single tokens -/

/-- A token of some kind. -/
def token (accepts : Token → Bool) (h : ∃ token, accepts token = true) :
    Part where
  reach := take accepts
  derives ts out :=
    ∃ token span, accepts token = true ∧ ts = ⟨token, span⟩ :: out
  closes := by
    obtain ⟨token, h⟩ := h
    exact ⟨[⟨token, default⟩], fun out => ⟨token, default, h, rfl⟩⟩

theorem firm_token (accepts : Token → Bool)
    (h : ∃ token, accepts token = true) (ts : Tokens) :
    (token accepts h).Firm ts := by
  cases ts with
  | nil =>
    refine .fail fun ts' ha => ?_
    cases ts' with
    | nil => rfl
    | cons t rest => cases ha.next
  | cons t rest =>
    by_cases ht : accepts t.value = true
    · refine .one (fun rest => if_pos ht) fun out => ⟨t.value, t.span, ht, rfl⟩
    · refine .fail fun ts' ha => ?_
      cases ts' with
      | nil => cases ha.next
      | cons t' rest' =>
        have he : t'.value = t.value := Option.some.inj ha.next
        exact if_neg (he ▸ ht)

/-- A certain mark. -/
def mark (m : Mark) : Part :=
  token (· = .mark m) ⟨.mark m, by simp⟩

/-- A name. -/
def name : Part :=
  token isName ⟨.identifier "a", rfl⟩

theorem derives_mark {m : Mark} {ts out : Tokens}
    (h : (mark m).derives ts out) : ∃ span, ts = ⟨.mark m, span⟩ :: out := by
  obtain ⟨token, span, ht, rfl⟩ := h
  rw [decide_eq_true_iff] at ht
  exact ⟨span, by rw [ht]⟩

theorem derives_name {ts out : Tokens} (h : name.derives ts out) :
    ∃ word span, ts = ⟨.identifier word, span⟩ :: out := by
  obtain ⟨token, span, ht, rfl⟩ := h
  obtain ⟨word, rfl⟩ := isName_iff.1 ht
  exact ⟨word, span, rfl⟩

/-- A mark that may be left out. -/
def optionalMark (m : Mark) : Part where
  reach := skip m
  derives := Grammar.OptionalMark False m
  closes := ⟨[], fun out => .omitted out False.elim⟩

theorem firm_optionalMark (m : Mark) (ts : Tokens) :
    (optionalMark m).Firm ts := by
  by_cases h : next? ts = some (.mark m)
  · obtain ⟨span, rest, rfl⟩ := next?_eq_some.1 h
    refine .one (fun rest => ?_) fun out => .taken span out
    simp [optionalMark, skip, Parser.optionalMark, Parsed.read]
  · refine .stay (fun ts' ha => ?_) fun out => .omitted out False.elim
    have hs : Grammar.OptionalMark False m ts' ts' := .omitted _ False.elim
    exact congrArg Except.ok (hs.rest_eq (ha.next ▸ h))

/-- A name that may be left out. -/
def optionalName : Part where
  reach ts := .ok (optionalIdentifier ts).rest
  derives ts out := ∃ name, Grammar.OptionalName False ts name out
  closes := ⟨[], fun out => ⟨none, .omitted out False.elim⟩⟩

theorem firm_optionalName (ts : Tokens) : optionalName.Firm ts := by
  by_cases h : ∃ name, next? ts = some (.identifier name)
  · obtain ⟨name, h⟩ := h
    obtain ⟨span, rest, rfl⟩ := next?_eq_some.1 h
    exact .one (fun rest => rfl) fun out => ⟨_, .taken name span out⟩
  · refine .stay (fun ts' ha => ?_) fun out => ⟨none, .omitted out False.elim⟩
    have hn := @optionalIdentifier_of_ne ts' fun name hn =>
      h ⟨name, ha.next ▸ hn⟩
    exact congrArg Except.ok hn.2

/-! ### Paths, literals and modifiers -/

/-- The names of a path behind its first one. -/
def pathTail (within : Option Expectation) : Part where
  reach ts := Parser.reach (Parser.pathTail within ts)
  derives ts out := ∃ names, Grammar.PathTail ts names out
  closes := ⟨[], fun out => ⟨_, .nil out⟩⟩

theorem firm_pathTail (within : Option Expectation) (ts : Tokens) :
    (pathTail within).Firm ts := by
  by_cases h : next? ts = some (.mark .dot)
  · obtain ⟨dot, rest, rfl⟩ := next?_eq_some.1 h
    refine .commit (q := name.andThen (pathTail within)) [_]
      (fun rest' _ => reach_pathTail_dot within dot rest') ?_
      (.andThen (firm_token _ _ rest) fun rest' hle =>
        firm_pathTail within rest')
    rintro ts out ⟨ts', hw, names, hn⟩
    obtain ⟨word, span, rfl⟩ := derives_name hw
    exact ⟨_, .cons hn⟩
  · exact .stay (fun ts' ha => reach_pathTail_of_ne within (ha.next ▸ h))
      fun out => ⟨_, .nil out⟩
termination_by ts.length
decreasing_by all_goals grind

/-- A literal. -/
def literal : Part where
  reach ts := Parser.reach (Parser.literal ts)
  derives ts out := ∃ value, Grammar.Literal False ts value out
  closes := ⟨[⟨.keyword .trueWord, default⟩],
    fun out => ⟨_, .simple default out .yes⟩⟩

/-- The fields of a record. -/
def fields : Part where
  reach ts := Parser.reach (recordFields ts)
  derives ts out := ∃ fields, Grammar.Fields False ts fields out
  closes := ⟨[], fun out => ⟨_, .nil out⟩⟩

/-- What stands between the name and the value of a field. -/
def sign : Part :=
  token isSign ⟨.mark .equals, rfl⟩

mutual

theorem firm_literal (ts : Tokens) : literal.Firm ts := by
  by_cases h : next? ts = some (.mark .recordOpen)
  · obtain ⟨opening, rest, rfl⟩ := next?_eq_some.1 h
    refine .commit (q := fields.andThen (mark .rightParen)) [_]
      (fun rest' _ => reach_literal_record opening rest') ?_
      (.andThen (firm_fields rest) fun rest' _ => firm_token _ _ rest')
    rintro ts out ⟨ts', ⟨fields, hf⟩, hc⟩
    obtain ⟨closing, rfl⟩ := derives_mark hc
    exact ⟨_, .record hf⟩
  · refine .commit
      (q := token (simpleLiteral? · |>.isSome) ⟨.keyword .trueWord, rfl⟩) []
      (fun ts' ha => reach_literal_of_ne (ha.next ▸ h)) ?_ (firm_token _ _ ts)
    rintro ts out ⟨token, span, ht, rfl⟩
    obtain ⟨value, hv⟩ := Option.isSome_iff_exists.1 ht
    exact ⟨_, .simple span out (simpleLiteral?_eq_some.1 hv)⟩
termination_by ts.length

theorem firm_fields (ts : Tokens) : fields.Firm ts := by
  by_cases h : ∃ name, next? ts = some (.identifier name)
  · obtain ⟨name, h⟩ := h
    obtain ⟨span, rest, rfl⟩ := next?_eq_some.1 h
    refine .commit
      (q := sign.andThen
        (literal.andThen ((optionalMark .comma).andThen fields))) [_]
      (fun rest' _ => reach_recordFields_name name span rest') ?_
      (.andThen (firm_token _ _ rest) fun rest₁ h₁ =>
        .andThen (firm_literal rest₁) fun rest₂ h₂ =>
        .andThen (firm_optionalMark .comma rest₂) fun rest₃ h₃ =>
        firm_fields rest₃)
    rintro ts out ⟨_, ⟨token, span', ht, rfl⟩, _, ⟨value, hv⟩, _, hc, fields,
      hf⟩
    obtain rfl | rfl := isSign_iff.1 ht
    · exact ⟨_, .cons (.inl rfl) hv hc hf⟩
    · exact ⟨_, .cons (.inr rfl) hv hc hf⟩
  · refine .stay (fun ts' ha => reach_recordFields_of_ne fun name hn => ?_)
      fun out => ⟨_, .nil out⟩
    exact h ⟨name, ha.next ▸ hn⟩
termination_by ts.length
decreasing_by all_goals grind

end

/-- The names of modifiers. -/
def modifierNames : Part where
  reach ts := .ok (Parser.modifierNames ts).rest
  derives ts out := ∃ names, Grammar.ModifierNames False ts names out
  closes := ⟨[], fun out => ⟨_, .nil out⟩⟩

theorem firm_modifierNames (ts : Tokens) : modifierNames.Firm ts := by
  by_cases h : ∃ name, next? ts = some (.identifier name)
  · obtain ⟨name, h⟩ := h
    obtain ⟨span, rest, rfl⟩ := next?_eq_some.1 h
    refine .commit (q := (optionalMark .comma).andThen modifierNames) [_]
      (fun rest' _ => modifierNames_rest_cons name span rest') ?_
      (.andThen (firm_optionalMark .comma rest) fun rest' hle =>
        firm_modifierNames rest')
    rintro ts out ⟨_, hc, names, hn⟩
    exact ⟨_, .cons hc hn⟩
  · refine .stay (fun ts' ha => ?_) fun out => ⟨_, .nil out⟩
    have hn := @modifierNames_of_ne ts' fun name hn =>
      h ⟨name, ha.next ▸ hn⟩
    exact congrArg Except.ok hn.2
termination_by ts.length
decreasing_by all_goals grind

/-! ### Declarations and members -/

/-- A part that begins with the header of a declaration and goes on as another
one behind it. The header is not a part to be put in front: where there is only
an opening bracket, nothing is taken. -/
theorem firm_of_header {p q : Part} {ts : Tokens} (hh : header? ts ≠ none)
    (hr : ∀ ts, header? ts ≠ none →
      p.reach ts = reachHeader ts >>= q.reach)
    (hd : ∀ {ts modifiers typeWord rest out},
      Grammar.Header False ts modifiers typeWord rest → q.derives rest out →
        p.derives ts out)
    (hq : ∀ rest, rest.length < ts.length → q.Firm rest) : p.Firm ts := by
  by_cases hw : ∃ word, next? ts = some (.identifier word)
  · obtain ⟨word, hw⟩ := hw
    obtain ⟨span, rest, rfl⟩ := next?_eq_some.1 hw
    refine .commit (q := q) [_] (fun rest' _ => ?_)
      (fun ts out h => hd (.plain word span ts) h)
      (hq rest (Nat.lt_succ_self _))
    exact hr (⟨.identifier word, span⟩ :: rest') (by simp [header?])
  · have hb : ∃ opening tag span rest, ts = ⟨.mark .leftBracket, opening⟩ ::
        ⟨.identifier tag, span⟩ :: rest := by
      refine Classical.byContradiction fun hb => ?_
      exact hh (header?_eq_none.2 ⟨fun word h => hw ⟨word, h⟩,
        fun opening tag span rest h => hb ⟨opening, tag, span, rest, h⟩⟩)
    obtain ⟨opening, tag, span, rest, rfl⟩ := hb
    refine .commit
      (q := (optionalMark .comma).andThen (modifierNames.andThen
        ((mark .rightBracket).andThen (name.andThen q)))) [_, _]
      (fun rest' _ => ?_) ?_
      (.andThen (firm_optionalMark .comma rest) fun rest₁ h₁ =>
        .andThen (firm_modifierNames rest₁) fun rest₂ h₂ =>
        .andThen (firm_token _ _ rest₂) fun rest₃ h₃ =>
        .andThen (firm_token _ _ rest₃) fun rest₄ h₄ => hq rest₄ (by grind))
    · have hr' := hr (⟨.mark .leftBracket, opening⟩ ::
        ⟨.identifier tag, span⟩ :: rest') (by simp [header?])
      simp only [reachHeader_bracket, bind_assoc] at hr'
      exact hr'
    · rintro ts out ⟨_, hc, _, ⟨names, hn⟩, _, hb, _, hw, hq⟩
      obtain ⟨closing, rfl⟩ := derives_mark hb
      obtain ⟨word, place, rfl⟩ := derives_name hw
      exact hd (.modified (List.cons_ne_nil _ _) (.cons hc hn)) hq

/-- What a member is behind its name. -/
def memberRest (name : Spanned String) : Part where
  reach ts := Parser.reach (Parser.memberRest name ts)
  derives ts out := ∃ m,
    Grammar.Member False (⟨.identifier name.value, name.span⟩ :: ts) m out
  closes := ⟨[⟨.mark .equals, default⟩, ⟨.keyword .trueWord, default⟩],
    fun out => ⟨_, .slot (.simple default out .yes)⟩⟩

/-- Members of a declaration. -/
def members : Part where
  reach ts := Parser.reach (Parser.members ts)
  derives ts out := ∃ ms, Grammar.Members False ts ms out
  closes := ⟨[], fun out => ⟨_, .nil out⟩⟩

/-- Declarations. -/
def declarations : Part where
  reach ts := Parser.reach (Parser.declarations ts)
  derives ts out := ∃ ds, Grammar.Declarations False ts ds out
  closes := ⟨[], fun out => ⟨_, .nil out⟩⟩

/-- A body that may be left out. -/
def body : Part where
  reach := reachBody
  derives ts out := ∃ ms braces, Grammar.OptionalBody False ts ms braces out
  closes := ⟨[], fun out => ⟨_, _, .omitted out False.elim⟩⟩

/-- What a declaration is behind its header. -/
def declarationRest : Part :=
  optionalName.andThen (body.andThen (optionalMark .semicolon))

theorem firm_declarationRest
    (hb : ∀ rest, rest.length ≤ ts.length → body.Firm rest) :
    declarationRest.Firm ts :=
  .andThen (firm_optionalName ts) fun rest h =>
    .andThen (hb rest h) fun rest _ => firm_optionalMark .semicolon rest

/-- Behind a colon any literal can stand: a name is a path there. -/
theorem derives_literal_colon {name : Spanned String} (sign : Span)
    {ts out : Tokens} (h : literal.derives ts out) :
    (memberRest name).derives (⟨.mark .colon, sign⟩ :: ts) out := by
  obtain ⟨value, hv⟩ := h
  by_cases hw : ∃ word, next? ts = some (.identifier word)
  · obtain ⟨word, hw⟩ := hw
    obtain ⟨span, rest, rfl⟩ := next?_eq_some.1 hw
    cases hv with
    | simple => exact ⟨_, .link (.intro (.nil _))⟩
  · exact ⟨_, .value (hv.ne_identifier fun word h => hw ⟨word, h⟩) hv⟩

mutual

theorem firm_members (ts : Tokens) : members.Firm ts := by
  by_cases h : ∃ name, next? ts = some (.identifier name)
  · obtain ⟨name, h⟩ := h
    obtain ⟨span, rest, rfl⟩ := next?_eq_some.1 h
    refine .commit (q := (memberRest ⟨name, span⟩).andThen
        ((optionalMark .semicolon).andThen members)) [_]
      (fun rest' _ => reach_members_name name span rest') ?_
      (.andThen (firm_memberRest ⟨name, span⟩ rest) fun rest₁ h₁ =>
        .andThen (firm_optionalMark .semicolon rest₁) fun rest₂ h₂ =>
        firm_members rest₂)
    rintro ts out ⟨_, ⟨m, hm⟩, _, hs, ms, hms⟩
    exact ⟨_, .cons hm hs hms⟩
  · refine .stay (fun ts' ha => reach_members_of_ne fun name hn => ?_)
      fun out => ⟨_, .nil out⟩
    exact h ⟨name, ha.next ▸ hn⟩
termination_by ts.length
decreasing_by all_goals grind

theorem firm_memberRest (name : Spanned String) (ts : Tokens) :
    (memberRest name).Firm ts := by
  by_cases he : next? ts = some (.mark .equals)
  · obtain ⟨sign, rest, rfl⟩ := next?_eq_some.1 he
    refine .commit (q := literal) [_]
      (fun rest' _ => reach_memberRest_equals name sign rest') ?_
      (firm_literal rest)
    rintro ts out ⟨value, hv⟩
    exact ⟨_, .slot hv⟩
  by_cases hc : next? ts = some (.mark .colon)
  · obtain ⟨sign, rest, rfl⟩ := next?_eq_some.1 hc
    by_cases hw : ∃ first, next? rest = some (.identifier first)
    · obtain ⟨first, hw⟩ := hw
      obtain ⟨span, rest, rfl⟩ := next?_eq_some.1 hw
      refine .commit (q := pathTail none) [_, _]
        (fun rest' _ => reach_memberRest_path name sign first span rest') ?_
        (firm_pathTail none rest)
      rintro ts out ⟨names, hn⟩
      exact ⟨_, .link (.intro hn)⟩
    · refine .commit (q := literal) [_] (fun rest' ha => ?_)
        (fun ts out => derives_literal_colon sign) (firm_literal rest)
      exact reach_memberRest_colon name sign fun first h =>
        hw ⟨first, ha.next ▸ h⟩
  by_cases hb : next? ts = some (.mark .leftBrace)
  · obtain ⟨opening, rest, rfl⟩ := next?_eq_some.1 hb
    refine .commit (q := declarations.andThen (mark .rightBrace)) [_]
      (fun rest' _ => reach_memberRest_block name opening rest') ?_
      (.andThen (firm_declarations rest) fun rest' _ => firm_token _ _ rest')
    rintro ts out ⟨_, ⟨ds, hd⟩, hc⟩
    obtain ⟨closing, rfl⟩ := derives_mark hc
    exact ⟨_, .block hd⟩
  exact .fail fun ts' ha => reach_memberRest_of_ne name (ha.next ▸ he)
    (ha.next ▸ hc) (ha.next ▸ hb)
termination_by ts.length
decreasing_by all_goals grind

theorem firm_declarations (ts : Tokens) : declarations.Firm ts := by
  by_cases hh : header? ts = none
  · exact .stay (fun ts' ha => reach_declarations_of_none (ha.header hh))
      fun out => ⟨_, .nil out⟩
  · refine firm_of_header (q := declarationRest.andThen declarations) hh
      (fun ts h => reach_declarations_of_header h) ?_ fun rest h =>
        .andThen (firm_declarationRest fun rest₁ h₁ => firm_body rest₁)
          fun rest₂ h₂ => firm_declarations rest₂
    rintro ts modifiers typeWord rest out hh
      ⟨_, ⟨_, ⟨name, hn⟩, _, ⟨ms, braces, hb⟩, hs⟩, ds, hd⟩
    exact ⟨_, .cons (.intro hh hn hb hs) hd⟩
termination_by ts.length
decreasing_by all_goals grind

theorem firm_body (ts : Tokens) : body.Firm ts := by
  by_cases h : next? ts = some (.mark .leftBrace)
  · obtain ⟨opening, rest, rfl⟩ := next?_eq_some.1 h
    refine .commit (q := members.andThen (mark .rightBrace)) [_]
      (fun rest' _ => rfl) ?_
      (.andThen (firm_members rest) fun rest' _ => firm_token _ _ rest')
    rintro ts out ⟨_, ⟨ms, h⟩, hc⟩
    obtain ⟨closing, rfl⟩ := derives_mark hc
    exact ⟨_, _, .taken h⟩
  · exact .stay (fun ts' ha => reachBody_of_ne (ha.next ▸ h)) fun out =>
      ⟨_, _, .omitted out False.elim⟩
termination_by ts.length
decreasing_by all_goals grind

end

/-! ### Items -/

/-- The name of a unit. -/
def unitName : Part where
  reach ts := Parser.reach (Parser.unitName ts)
  derives ts out := ∀ word, ∃ name, Grammar.Item False
    (⟨.keyword .importUnit, word⟩ :: ts) (.importUnit name) out
  closes := ⟨[⟨.string "", default⟩], fun out word =>
    ⟨_, .importText word default "" out⟩⟩

theorem firm_unitName (ts : Tokens) : unitName.Firm ts := by
  by_cases hw : ∃ first, next? ts = some (.identifier first)
  · obtain ⟨first, hw⟩ := hw
    obtain ⟨span, rest, rfl⟩ := next?_eq_some.1 hw
    refine .commit (q := pathTail (some .unitName)) [_]
      (fun rest' _ => reach_unitName_name first span rest') ?_
      (firm_pathTail _ rest)
    rintro ts out ⟨names, hn⟩ word
    exact ⟨_, .importPath (.intro hn)⟩
  · refine .commit (q := token isText ⟨.string "", rfl⟩) []
      (fun rest' ha => ?_) ?_ (firm_token _ _ ts)
    · exact reach_unitName_of_ne fun first h => hw ⟨first, ha.next ▸ h⟩
    · rintro ts out ⟨token, span, ht, rfl⟩ word
      obtain ⟨content, rfl⟩ := isText_iff.1 ht
      exact ⟨_, .importText word span content out⟩

/-- The items of a unit. -/
def items : Part where
  reach ts := Parser.reach (Parser.items ts)
  derives ts out := ∃ is, Grammar.Items False ts is out
  closes := ⟨[], fun out => ⟨_, .nil out⟩⟩

theorem firm_items (ts : Tokens) : items.Firm ts := by
  by_cases hl : next? ts = some (.keyword .language)
  · obtain ⟨word, rest, rfl⟩ := next?_eq_some.1 hl
    refine .commit (q := name.andThen ((optionalMark .semicolon).andThen
        items)) [_]
      (fun rest' _ => reach_items_language word rest') ?_
      (.andThen (firm_token _ _ rest) fun rest₁ h₁ =>
        .andThen (firm_optionalMark .semicolon rest₁) fun rest₂ h₂ =>
        firm_items rest₂)
    rintro ts out ⟨_, hw, _, hs, is, hi⟩
    obtain ⟨name, span, rfl⟩ := derives_name hw
    exact ⟨_, .cons (.language word span name _) hs hi⟩
  by_cases hi : next? ts = some (.keyword .importUnit)
  · obtain ⟨word, rest, rfl⟩ := next?_eq_some.1 hi
    refine .commit (q := unitName.andThen ((optionalMark .semicolon).andThen
        items)) [_]
      (fun rest' _ => reach_items_importUnit word rest') ?_
      (.andThen (firm_unitName rest) fun rest₁ h₁ =>
        .andThen (firm_optionalMark .semicolon rest₁) fun rest₂ h₂ =>
        firm_items rest₂)
    rintro ts out ⟨_, hn, _, hs, is, hi⟩
    obtain ⟨name, hn⟩ := hn word
    exact ⟨_, .cons hn hs hi⟩
  by_cases hh : header? ts = none
  · exact .stay (fun ts' ha => reach_items_of_none (ha.next ▸ hl)
      (ha.next ▸ hi) (ha.header hh)) fun out => ⟨_, .nil out⟩
  · refine firm_of_header (q := declarationRest.andThen
        ((optionalMark .semicolon).andThen items)) hh
      (fun ts h => reach_items_of_header h) ?_ fun rest h =>
        .andThen (firm_declarationRest fun rest₁ _ => firm_body rest₁)
          fun rest₂ h₂ =>
        .andThen (firm_optionalMark .semicolon rest₂) fun rest₃ h₃ =>
        firm_items rest₃
    rintro ts modifiers typeWord rest out hh
      ⟨_, ⟨_, ⟨name, hn⟩, _, ⟨ms, braces, hb⟩, hs⟩, _, hs', is, hi⟩
    exact ⟨_, .cons (.declaration (.intro hh hn hb hs)) hs' hi⟩
termination_by ts.length
decreasing_by all_goals grind

end Part

end Parser

end ModelText
