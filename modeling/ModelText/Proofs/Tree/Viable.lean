import ModelText.Proofs.Tree.Firm

/-!
# The first token that does not fit

Where the parser stops, all that it has taken can begin a unit, and the token at
which it stops cannot come next, for if some unit went on with it, the parser
would read that unit and yet stop there. The parser takes an opening bracket
only together with a name behind it, though, so where no name follows it stops
one token too early.
-/

namespace ModelText

namespace Grammar

/-- The tokens are a unit, in any reading of the rules. -/
def FormsUnit (ts : Tokens) : Prop :=
  ∃ tree, SourceTree False ts tree

/-- The tokens are the first ones of some unit. -/
def BeginsUnit (ts : Tokens) : Prop :=
  ∃ more, FormsUnit (ts ++ more)

/-- The first tokens begin a unit. The one behind them cannot come next; if
there is none, the unit cannot end there. -/
def Offends (before rest : Tokens) : Prop :=
  BeginsUnit before ∧
    match rest with
    | [] => ¬FormsUnit before
    | t :: _ => ¬BeginsUnit (before ++ [t])

end Grammar

open ModelText.Parser ModelText.Grammar
open Tokens (next? next?_eq_some)

theorem Grammar.FormsUnit.reach_items {ts : Tokens} (h : FormsUnit ts) :
    reach (Parser.items ts) = .ok [] := by
  obtain ⟨tree, h⟩ := h
  obtain ⟨is, ⟨_, hr⟩, _⟩ := Items.reads h
  rw [hr]
  rfl

/-- A token cannot come next if no tokens that begin with it form a unit behind
`before`. -/
theorem Grammar.Offends.of_next {before rest : Tokens}
    (hb : BeginsUnit before)
    (h : ∀ rest', next? rest' = next? rest → ¬FormsUnit (before ++ rest')) :
    Offends before rest := by
  refine ⟨hb, ?_⟩
  cases rest with
  | nil => simpa using h [] rfl
  | cons t rest =>
    rintro ⟨more, hu⟩
    rw [List.append_assoc] at hu
    exact h (t :: more) rfl hu

namespace SourceTree

/-- Where the tokens are no unit, the parser has taken what begins one, and
would not have got further with any tokens that begin as those it left. -/
theorem stops_of_ofTokens {ts : Tokens} {e : SyntaxError}
    (h : ofTokens ts = .error e) :
    ∃ before, ts = before ++ e.rest ∧ BeginsUnit before ∧
      ∀ rest, Alike e.rest rest → ¬FormsUnit (before ++ rest) := by
  have hreach : reach (Parser.items ts) = .error e.rest ∨
      reach (Parser.items ts) = .ok e.rest ∧ e.rest ≠ [] := by
    unfold ofTokens at h
    cases hi : Parser.items ts with
    | error e' =>
      rw [hi] at h
      cases h
      exact .inl rfl
    | ok p =>
      obtain ⟨is, rest, hle⟩ := p
      rw [hi] at h
      cases rest with
      | nil => cases h
      | cons t rest =>
        cases h
        exact .inr ⟨rfl, List.cons_ne_nil _ _⟩
  cases Part.firm_items ts with
  | leaves before rest hr hd =>
    have hok := hr rest (.refl rest)
    obtain ⟨hr', hne⟩ := hreach.resolve_left fun he => by
      cases hok.symm.trans he
    cases hok.symm.trans hr'
    obtain ⟨is, hi⟩ := hd []
    refine ⟨before, rfl, ⟨[], ⟨is⟩, hi⟩, fun rest' ha hu => ?_⟩
    cases (hr rest' ha).symm.trans hu.reach_items
    exact hne (Tokens.next?_eq_none.1 ha.next.symm)
  | stops before rest more hr hd =>
    have herror := hr rest (.refl rest)
    have hr' := hreach.resolve_right fun hok => by
      cases herror.symm.trans hok.1
    cases herror.symm.trans hr'
    obtain ⟨is, hi⟩ := hd []
    rw [List.append_nil] at hi
    refine ⟨before, rfl, ⟨more, ⟨is⟩, hi⟩, fun rest' ha hu => ?_⟩
    cases (hr rest' ha).symm.trans hu.reach_items

/-- The label is at the first of the tokens that are left, or at the last byte of
the text. -/
theorem labels_of_rest {ts before : Tokens} {e : SyntaxError}
    (h : ts = before ++ e.rest) (n : Nat) :
    (e.diagnostic n).labels.map (·.span) =
      [(ts[before.length]?).elim (Span.between n n).lastByte (·.span)] := by
  subst h
  rw [List.getElem?_append_right (Nat.le_refl _), Nat.sub_self]
  unfold SyntaxError.diagnostic
  cases e.rest <;> rfl

/-- **The parser stops at the first token that does not fit.** The diagnostic of
tokens that are no unit points at one of them, or at the end. The tokens in
front of it begin a unit, but not together with this token; and where all tokens
begin a unit, they are none themselves. There is one exception. An opening
bracket with no name behind it is pointed at although a unit could go on with
it: then what does not fit comes behind the bracket. -/
theorem ofTokens_stops_at_offender {ts : Tokens} {e : SyntaxError}
    (h : ofTokens ts = .error e) :
    ∃ before, ts = before ++ e.rest ∧
      (∀ n, (e.diagnostic n).labels.map (·.span) =
        [(ts[before.length]?).elim (Span.between n n).lastByte (·.span)]) ∧
      (Offends before e.rest ∨
        ∃ opening more, e.rest = ⟨.mark .leftBracket, opening⟩ :: more ∧
          (∀ name, next? more ≠ some (.identifier name)) ∧
          BeginsUnit before ∧
          Offends (before ++ [⟨.mark .leftBracket, opening⟩]) more) := by
  obtain ⟨before, hts, hb, hstop⟩ := stops_of_ofTokens h
  refine ⟨before, hts, labels_of_rest hts, ?_⟩
  by_cases hn : next? e.rest = some (.mark .leftBracket) ∧
      header? e.rest = none
  · obtain ⟨hbracket, hnone⟩ := hn
    obtain ⟨opening, more, hr⟩ := next?_eq_some.1 hbracket
    rw [hr] at hstop hnone ⊢
    by_cases hv : BeginsUnit (before ++ [⟨.mark .leftBracket, opening⟩])
    · have hname (name : String) : next? more ≠ some (.identifier name) := by
        intro hw
        obtain ⟨span, rest, rfl⟩ := next?_eq_some.1 hw
        exact (header?_eq_none.1 hnone).2 _ _ _ _ rfl
      refine .inr ⟨opening, more, rfl, hname, hb, .of_next hv ?_⟩
      intro rest' hnext
      rw [List.append_assoc]
      exact hstop _ (.cons _ hnext)
    · exact .inl ⟨hb, hv⟩
  · refine .inl (.of_next hb fun rest' hnext => hstop rest' ?_)
    exact .of_next hnext fun hbracket hnone => hn ⟨hbracket, hnone⟩

/-- A brace where the value of a slot is missing. -/
theorem ofTokens_stops_at_offender_brace :
    let ts : Tokens := [⟨.identifier "x", .between 0 1⟩,
      ⟨.mark .leftBrace, .between 2 3⟩, ⟨.identifier "s", .between 4 5⟩,
      ⟨.mark .equals, .between 6 7⟩, ⟨.mark .rightBrace, .between 8 9⟩]
    ∃ e, ofTokens ts = .error e ∧ e.rest = ts.drop 4 ∧
      Offends (ts.take 4) (ts.drop 4) := by
  intro ts
  have h : ofTokens ts = .error ⟨.literal, none, ts.drop 4⟩ := by
    rw [ofTokens, Parser.items, header?]
    · dsimp only [bind, Except.bind, Header.read]
      rw [declarationRest]
      dsimp only [bind, Except.bind, optionalIdentifier, Parsed.read]
      rw [Parser.members, memberRest, literal]
      · rfl
      all_goals simp
    all_goals simp [ts]
  obtain ⟨before, hts, -, ho⟩ := ofTokens_stops_at_offender h
  have hbefore : before = ts.take 4 :=
    List.append_cancel_right (hts.symm.trans (List.take_append_drop 4 ts).symm)
  refine ⟨_, h, rfl, ?_⟩
  obtain ho | ⟨opening, more, hr, -⟩ := ho
  · exact hbefore ▸ ho
  · cases hr

/-- An opening bracket that is pointed at, although a unit can begin with it. -/
theorem ofTokens_stops_too_early :
    let ts : Tokens := [⟨.mark .leftBracket, .between 0 1⟩,
      ⟨.mark .rightBracket, .between 1 2⟩, ⟨.identifier "a", .between 3 4⟩]
    ∃ e, ofTokens ts = .error e ∧ e.rest = ts ∧
      (e.diagnostic 4).labels.map (·.span) = [.between 0 1] ∧
      ¬Offends [] ts := by
  intro ts
  have h : ofTokens ts = .error ⟨.declaration, none, ts⟩ := by
    simp [ts, ofTokens, Parser.items, header?, Parsed.read, fail, bind,
      Except.bind]
  refine ⟨_, h, rfl, rfl, fun ho => ho.2 ?_⟩
  exact ⟨[⟨.identifier "m", default⟩, ⟨.mark .rightBracket, default⟩,
      ⟨.identifier "a", default⟩], ⟨[_]⟩,
    .cons (.declaration (.intro (.modified (List.cons_ne_nil _ _)
      (.cons (.omitted _ False.elim) (.nil _))) (.omitted _ False.elim)
      (.omitted _ False.elim) (.omitted _ False.elim)))
      (.omitted _ False.elim) (.nil _)⟩

end SourceTree

end ModelText
