import ModelText.Event
import ModelText.Problem.Basic
import ModelText.Proofs.Token.Places
import ModelText.Proofs.Verdict

/-!
# Where the reader points at

The parser takes tokens from left to right, so what it leaves is an end of what
it was given, whether it goes on or fails there. A text that is rejected is
told to be wrong at one of its tokens, then, or at its end, or where one of its
pieces is no token.
-/

namespace ModelText

namespace Parser

variable {α : Type} {all ts rest : Tokens} {t : Spanned Token}

/-- The step leaves an end of the tokens, also where it fails. -/
def Leaves (all : Tokens) (result : ParseResult α ts) : Prop :=
  Verdict (fun p => p.rest <:+ all) (fun e => e.rest <:+ all) result

theorem suffix_of_cons (h : t :: rest <:+ all) : rest <:+ all :=
  (List.suffix_cons t rest).trans h

theorem leaves_mark (m : Mark) (expected : Expectation)
    (within : Option Expectation) (h : ts <:+ all) :
    Leaves all (mark m expected within ts) := by
  cases ts with
  | nil => exact h
  | cons t rest =>
    unfold mark
    dsimp only
    split
    · exact suffix_of_cons h
    · exact h

theorem optionalMark_suffix (m : Mark) (h : ts <:+ all) :
    ∃ rest hle, optionalMark m ts = ⟨(), rest, hle⟩ ∧ rest <:+ all := by
  refine ⟨_, (optionalMark m ts).length_le, rfl, ?_⟩
  cases ts with
  | nil => exact h
  | cons t rest =>
    unfold optionalMark
    dsimp only
    split
    · exact suffix_of_cons h
    · exact h

theorem leaves_identifier (within : Option Expectation) (h : ts <:+ all) :
    Leaves all (identifier within ts) := by
  rw [identifier.eq_def]
  split
  · exact suffix_of_cons h
  · exact h

theorem suffix_optionalIdentifier (h : ts <:+ all) :
    (optionalIdentifier ts).rest <:+ all := by
  rw [optionalIdentifier.eq_def]
  split
  · exact suffix_of_cons h
  · exact h

theorem leaves_pathTail (within : Option Expectation) (ts : Tokens)
    (h : ts <:+ all) : Leaves all (pathTail within ts) := by
  rw [pathTail.eq_def]
  split
  · next rest =>
    refine Verdict.bind (leaves_pathTail within rest
      (suffix_of_cons (suffix_of_cons h))) ?_
    rintro ⟨names, rest', _⟩ hr
    exact hr
  · exact suffix_of_cons h
  · exact h
termination_by ts.length

mutual

theorem leaves_literal (ts : Tokens) (h : ts <:+ all) :
    Leaves all (literal ts) := by
  rw [literal.eq_def]
  split
  · exact h
  · next rest =>
    refine Verdict.bind (leaves_recordFields rest (suffix_of_cons h)) ?_
    rintro ⟨fields, rest', _⟩ hf
    refine Verdict.bind (leaves_mark .rightParen _ _ hf) ?_
    rintro ⟨closing, rest'', _⟩ hc
    exact hc
  · split
    · exact suffix_of_cons h
    · exact h
termination_by ts.length

theorem leaves_recordFields (ts : Tokens) (h : ts <:+ all) :
    Leaves all (recordFields ts) := by
  rw [recordFields.eq_def]
  split
  · next rest =>
    have hrest := suffix_of_cons (suffix_of_cons h)
    split
    · refine Verdict.bind (leaves_literal rest hrest) ?_
      rintro ⟨value, rest', hle⟩ hv
      obtain ⟨rest'', hle', hm, hcomma⟩ :=
        optionalMark_suffix .comma hv
      dsimp only
      rw [hm]
      refine Verdict.bind (leaves_recordFields rest'' hcomma) ?_
      rintro ⟨fields, out, _⟩ hf
      exact hf
    · exact suffix_of_cons h
  · exact List.nil_suffix
  · exact h
termination_by ts.length
decreasing_by all_goals grind

end

theorem suffix_modifierNames (ts : Tokens) (h : ts <:+ all) :
    (modifierNames ts).rest <:+ all := by
  rw [modifierNames.eq_def]
  split
  · next rest =>
    obtain ⟨rest', hle, hm, hcomma⟩ :=
      optionalMark_suffix .comma (suffix_of_cons h)
    rw [hm]
    exact suffix_modifierNames rest' hcomma
  · exact h
termination_by ts.length
decreasing_by all_goals grind

theorem leaves_header? (h : ts <:+ all)
    {result : Except SyntaxError (Header ts)} (hr : header? ts = some result) :
    Verdict (fun header => header.rest <:+ all) (fun e => e.rest <:+ all)
      result := by
  unfold header? at hr
  split at hr
  · cases hr
    exact suffix_of_cons h
  · next tag span rest =>
    cases hr
    have hnames := suffix_modifierNames (⟨.identifier tag, span⟩ :: rest)
      (suffix_of_cons h)
    rcases hm : modifierNames (⟨.identifier tag, span⟩ :: rest)
      with ⟨tags, rest', _⟩
    rw [hm] at hnames
    refine Verdict.bind (leaves_mark .rightBracket _ _ hnames) ?_
    rintro ⟨closing, rest'', _⟩ hc
    refine Verdict.bind (leaves_identifier _ hc) ?_
    rintro ⟨word, out, _⟩ hw
    exact hw
  · cases hr

mutual

theorem leaves_declarations (ts : Tokens) (h : ts <:+ all) :
    Leaves all (declarations ts) := by
  rw [declarations.eq_def]
  split
  · exact h
  · next header hh =>
    refine Verdict.bind (leaves_header? h hh) ?_
    rintro ⟨modifiers, typeWord, rest, hlt⟩ hr
    refine Verdict.bind (leaves_declarationRest modifiers typeWord rest hr) ?_
    rintro ⟨d, rest', hle⟩ hd
    refine Verdict.bind (leaves_declarations rest' hd) ?_
    rintro ⟨ds, out, _⟩ ho
    exact ho
termination_by ts.length
decreasing_by all_goals grind

theorem leaves_declarationRest (modifiers : List (Spanned String))
    (typeWord : Spanned String) (ts : Tokens) (h : ts <:+ all) :
    Leaves all (declarationRest modifiers typeWord ts) := by
  rw [declarationRest.eq_def]
  have hname := suffix_optionalIdentifier h
  rcases hi : optionalIdentifier ts with ⟨name, rest, hle⟩
  rw [hi] at hname
  dsimp only
  split
  · next rest _ =>
    refine Verdict.bind (leaves_members rest (suffix_of_cons hname)) ?_
    rintro ⟨members, rest', _⟩ hm
    refine Verdict.bind (leaves_mark .rightBrace _ _ hm) ?_
    rintro ⟨closing, rest'', _⟩ hc
    obtain ⟨out, _, ho, hsemicolon⟩ := optionalMark_suffix .semicolon hc
    dsimp only
    rw [ho]
    exact hsemicolon
  · obtain ⟨out, _, ho, hsemicolon⟩ := optionalMark_suffix .semicolon hname
    rw [ho]
    exact hsemicolon
termination_by ts.length
decreasing_by all_goals grind

theorem leaves_members (ts : Tokens) (h : ts <:+ all) :
    Leaves all (members ts) := by
  rw [members.eq_def]
  split
  · next name span rest =>
    refine Verdict.bind (leaves_memberRest ⟨name, span⟩ rest
      (suffix_of_cons h)) ?_
    rintro ⟨m, rest', hle⟩ hm
    obtain ⟨rest'', hle', hm, hsemicolon⟩ :=
      optionalMark_suffix .semicolon hm
    dsimp only
    rw [hm]
    refine Verdict.bind (leaves_members rest'' hsemicolon) ?_
    rintro ⟨ms, out, _⟩ ho
    exact ho
  · exact h
termination_by ts.length
decreasing_by all_goals grind

theorem leaves_memberRest (name : Spanned String) (ts : Tokens)
    (h : ts <:+ all) : Leaves all (memberRest name ts) := by
  rw [memberRest.eq_def]
  split
  · next rest =>
    refine Verdict.bind (leaves_literal rest (suffix_of_cons h)) ?_
    rintro ⟨value, out, _⟩ hv
    exact hv
  · next rest =>
    refine Verdict.bind (leaves_pathTail none rest
      (suffix_of_cons (suffix_of_cons h))) ?_
    rintro ⟨others, out, _⟩ hp
    exact hp
  · next rest _ =>
    refine Verdict.bind (leaves_literal rest (suffix_of_cons h)) ?_
    rintro ⟨value, out, _⟩ hv
    exact hv
  · next rest =>
    refine Verdict.bind (leaves_declarations rest (suffix_of_cons h)) ?_
    rintro ⟨ds, rest', _⟩ hd
    refine Verdict.bind (leaves_mark .rightBrace _ _ hd) ?_
    rintro ⟨closing, out, _⟩ hc
    exact hc
  · exact h
termination_by ts.length

end

theorem leaves_unitName (h : ts <:+ all) : Leaves all (unitName ts) := by
  rw [unitName.eq_def]
  split
  · next rest =>
    refine Verdict.bind (leaves_pathTail _ rest (suffix_of_cons h)) ?_
    rintro ⟨others, out, _⟩ hp
    exact hp
  · exact suffix_of_cons h
  · exact h

theorem leaves_items (ts : Tokens) (h : ts <:+ all) :
    Leaves all (items ts) := by
  rw [items.eq_def]
  split
  · next rest =>
    refine Verdict.bind (leaves_identifier _ (suffix_of_cons h)) ?_
    rintro ⟨name, rest', hle⟩ hn
    obtain ⟨rest'', hle', hm, hsemicolon⟩ :=
      optionalMark_suffix .semicolon hn
    dsimp only
    rw [hm]
    refine Verdict.bind (leaves_items rest'' hsemicolon) ?_
    rintro ⟨others, out, _⟩ ho
    exact ho
  · next rest =>
    refine Verdict.bind (leaves_unitName (suffix_of_cons h)) ?_
    rintro ⟨name, rest', hle⟩ hn
    obtain ⟨rest'', hle', hm, hsemicolon⟩ :=
      optionalMark_suffix .semicolon hn
    dsimp only
    rw [hm]
    refine Verdict.bind (leaves_items rest'' hsemicolon) ?_
    rintro ⟨others, out, _⟩ ho
    exact ho
  · split
    · exact h
    · next header hh =>
      refine Verdict.bind (leaves_header? h hh) ?_
      rintro ⟨modifiers, typeWord, rest, hlt⟩ hr
      refine Verdict.bind
        (leaves_declarationRest modifiers typeWord rest hr) ?_
      rintro ⟨d, rest', hle⟩ hd
      obtain ⟨rest'', hle', hm, hsemicolon⟩ :=
        optionalMark_suffix .semicolon hd
      dsimp only
      rw [hm]
      refine Verdict.bind (leaves_items rest'' hsemicolon) ?_
      rintro ⟨others, out, _⟩ ho
      exact ho
termination_by ts.length
decreasing_by all_goals grind

end Parser

/-- What the parser could not take is an end of the tokens. -/
theorem SourceTree.rest_suffix_of_ofTokens {ts : Tokens} {e : SyntaxError}
    (h : ofTokens ts = .error e) : e.rest <:+ ts := by
  have hall : Verdict (fun _ => True) (fun e => e.rest <:+ ts)
      (ofTokens ts) := by
    refine Verdict.bind (Parser.leaves_items ts (List.suffix_refl ts)) ?_
    rintro ⟨items, rest, _⟩ hr
    cases rest with
    | nil => trivial
    | cons => exact hr
  exact hall.of_error h

/-! ### The places of faults -/

open Token (byteLength byteLength_append)

/-- The characters in front of some place of a text do not end inside of another
character. -/
theorem Token.byteLength_le_of_append_eq {before after first rest : List Char}
    {c : Char} (h : before ++ c :: after = first ++ rest)
    (hlt : byteLength before < byteLength first) :
    byteLength before + c.utf8Size ≤ byteLength first := by
  rcases List.append_eq_append_iff.1 h with
    ⟨more, rfl, hm⟩ | ⟨more, rfl, -⟩
  · cases more with
    | nil =>
      rw [List.append_nil] at hlt
      exact absurd hlt (Nat.lt_irrefl _)
    | cons d more =>
      cases (List.cons.inj hm).1
      rw [byteLength_append, Token.byteLength_cons]
      omega
  · rw [byteLength_append] at hlt
    omega

/-- How a span lies in a text, and the position that is told for it. It takes
whole characters; or it is the first byte of a character of several bytes; or
it is the last byte of a text that ends with such a character. A position is
counted in characters, but inside of a character in bytes. -/
inductive Span.Points (text : List Char) (span : Span) : Position → Prop
  | whole {before part after : List Char}
      (ht : text = before ++ (part ++ after))
      (hs : span.start = byteLength before)
      (he : span.stop = byteLength (before ++ part)) :
      Points text span (.behind before)
  | head {before after : List Char} {c : Char}
      (ht : text = before ++ c :: after) (hc : 1 < c.utf8Size)
      (hs : span.start = byteLength before)
      (he : span.stop = byteLength before + 1) :
      Points text span (.behind before)
  | tail {before : List Char} {c : Char} (ht : text = before ++ [c])
      (hc : 1 < c.utf8Size)
      (hs : span.start = byteLength before + (c.utf8Size - 1))
      (he : span.stop = byteLength before + c.utf8Size) :
      Points text span ⟨1 + before.count '\n',
        byteLength (Position.lastLine before) + c.utf8Size⟩

namespace Span

variable {text : String} {span : Span} {position : Position}

/-- Where a span points at is in the text. -/
theorem Points.stop_le {text : List Char} (h : span.Points text position) :
    span.stop ≤ byteLength text := by
  cases h with
  | whole ht _ he =>
    rw [he, ht, ← List.append_assoc, byteLength_append (_ ++ _)]
    exact Nat.le_add_right _ _
  | @head before after c ht hc _ he =>
    rw [he, ht, byteLength_append, Token.byteLength_cons]
    omega
  | tail ht _ _ he =>
    rw [he, ht, byteLength_append]
    exact Nat.le_refl _

theorem Whole.points (h : span.Whole text.toList) :
    span.Points text.toList (.ofOffset text span.start) := by
  obtain ⟨before, part, after, ht, hs, he⟩ := h
  rw [hs, Position.ofOffset_prefix ht]
  exact .whole ht hs he

/-- A span that ends inside of a character does not take whole characters. -/
theorem not_whole_of_stop (before after : List Char) (c : Char)
    (ht : text.toList = before ++ c :: after)
    (hlo : byteLength before < span.stop)
    (hhi : span.stop < byteLength before + c.utf8Size) :
    ¬span.Whole text.toList := by
  rintro ⟨first, part, rest, hw, -, he⟩
  rw [ht, ← List.append_assoc] at hw
  have hle := Token.byteLength_le_of_append_eq hw (he ▸ hlo)
  omega

/-- The last byte of a text. -/
theorem points_lastByte (text : String) :
    let span := (between text.utf8ByteSize text.utf8ByteSize).lastByte
    span.Points text.toList (.ofOffset text span.start) := by
  intro span
  have hstop : span.stop = byteLength text.toList :=
    (Nat.max_self _).trans (Token.byteLength_toList text)
  have hstart : span.start = byteLength text.toList - 1 :=
    congrArg (· - 1) hstop
  rcases List.eq_nil_or_concat text.toList with ht | ⟨before, c, ht⟩
  · rw [ht] at hstart hstop
    refine Whole.points ⟨[], [], [], ?_, hstart, hstop⟩
    exact ht
  · rw [List.concat_eq_append] at ht
    have hpos := c.utf8Size_pos
    rw [ht, byteLength_append, Token.byteLength_cons,
      Token.byteLength_nil] at hstart hstop
    by_cases hc : 1 < c.utf8Size
    · have hoffset : span.start = byteLength before + (c.utf8Size - 1) := by
        omega
      rw [hoffset, Position.ofOffset_inside ht (by omega) (by omega),
        Nat.add_assoc, Nat.sub_add_cancel hpos]
      exact .tail ht hc hoffset hstop
    · refine Whole.points ⟨before, [c], [], ht, by omega, ?_⟩
      rw [byteLength_append]
      exact hstop

end Span

/-- A fault among the pieces of a text. -/
theorem Token.points_of_error {text : String} {e : LexicalError}
    (h : e ∈ errorsOf (lexemes text)) :
    e.span.Points text.toList (.ofOffset text e.span.start) := by
  rcases place_of_error h with hw | ⟨before, c, after, ht, hc, -, hs, he⟩
  · exact hw.points
  · rw [hs, Position.ofOffset_prefix ht]
    exact .head ht hc hs he

/-- A token that no unit could have at its place, or the end of the text. -/
theorem SyntaxError.points_of_rest {text : String} {e : SyntaxError}
    (h : ∀ t ∈ e.rest, t.span.Whole text.toList) :
    ∃ label, (e.diagnostic text.utf8ByteSize).labels = [label] ∧
      label.isPrimary = true ∧
      label.span.Points text.toList (.ofOffset text label.span.start) := by
  cases hr : e.rest with
  | nil =>
    have hlast := Span.points_lastByte text
    refine ⟨⟨_, "unexpected token", true⟩, ?_, rfl, hlast⟩
    unfold diagnostic
    rw [hr]
    rfl
  | cons t rest =>
    have hpoints := (h t (hr ▸ List.mem_cons_self)).points
    refine ⟨⟨t.span, "unexpected token", true⟩, ?_, rfl, hpoints⟩
    unfold diagnostic
    rw [hr]

theorem Problem.locate_of_label {d : Diagnostic} {label : Label}
    (hl : d.labels = [label]) (hp : label.isPrimary = true)
    (name text : String) : locate name text d =
      .ofPosition name (.ofOffset text label.span.start) d := by
  have hs : d.primarySpan? = some label.span := by
    unfold Diagnostic.primarySpan?
    rw [hl, List.find?_cons_of_pos hp]
    rfl
  unfold locate
  rw [hs]

/-- What a text is rejected with, nothing when it is not. -/
def SourceTree.rejections (text : String) : List Diagnostic :=
  match ofSource text with
  | .ok _ => []
  | .error diagnostics => diagnostics

theorem SourceTree.ofSource_of_rejections {text : String} {d : Diagnostic}
    {rest : List Diagnostic} (h : rejections text = d :: rest) :
    ofSource text = .error (d :: rest) := by
  unfold rejections at h
  split at h
  · cases h
  · next he => exact he.trans (congrArg _ h)

/-- **Where a rejected text is told to be wrong.** Every diagnostic of a text
that is rejected has one label, which is in the text. It takes whole
characters, and its line and column are counted in characters — but a character
of several bytes that begins nothing is told at its first byte, and the end of
a text that ends with such a character is told at its last byte. -/
theorem SourceTree.points_of_ofSource {text : String}
    {diagnostics : List Diagnostic} (h : ofSource text = .error diagnostics)
    (name : String) :
    ∀ d ∈ diagnostics, ∃ label position, d.labels = [label] ∧
      label.isPrimary = true ∧
      label.span.stop ≤ text.utf8ByteSize ∧
      label.span.Points text.toList position ∧
      Problem.locate name text d = .ofPosition name position d := by
  intro d hd
  have hlabel : ∃ label, d.labels = [label] ∧ label.isPrimary = true ∧
      label.span.Points text.toList (.ofOffset text label.span.start) := by
    unfold ofSource at h
    cases hs : Token.scan text with
    | error errors =>
      rw [hs] at h
      cases h
      obtain ⟨e, he, rfl⟩ := List.mem_map.1 hd
      unfold Token.scan at hs
      dsimp only at hs
      split at hs
      · cases hs
      · cases hs
        exact ⟨_, rfl, rfl, Token.points_of_error he⟩
    | ok tokens =>
      rw [hs] at h
      dsimp only at h
      split at h
      · next e he =>
        cases h
        rw [List.mem_singleton.1 hd]
        refine SyntaxError.points_of_rest fun t ht => ?_
        have hm := (rest_suffix_of_ofTokens he).subset ht
        unfold Token.scan at hs
        dsimp only at hs
        split at hs
        · cases hs
          exact Token.whole_of_token hm
        · cases hs
      · cases h
  obtain ⟨label, hl, hp, hx⟩ := hlabel
  refine ⟨label, _, hl, hp, ?_, hx, Problem.locate_of_label hl hp name text⟩
  rw [Token.byteLength_toList]
  exact hx.stop_le

/-- A brace that is not closed is told at the last token. -/
theorem SourceTree.points_of_ofSource_brace :
    let text := "language shapes shape \x7b"
    ∃ d label position, ofSource text = .error [d] ∧ d.labels = [label] ∧
      (label.span.start, label.span.stop) = (22, 23) ∧
      label.span.Points text.toList position ∧
      Problem.locate "main" text d = .ofPosition "main" position d := by
  intro text
  have hs : ((rejections text).map fun d => d.labels.map fun label =>
      (label.span.start, label.span.stop)) = [[(22, 23)]] := by
    decide +kernel
  obtain ⟨d, hd, hlabels⟩ := List.map_eq_singleton_iff.1 hs
  have h := ofSource_of_rejections hd
  obtain ⟨label, position, hl, -, -, hpoints, hlocate⟩ :=
    points_of_ofSource h "main" d List.mem_cons_self
  rw [hl] at hlabels
  exact ⟨d, label, position, h, hl, (List.cons.inj hlabels).1, hpoints,
    hlocate⟩

/-- A label that ends inside of a character, and a column that counts a byte of
a character as a column. -/
theorem SourceTree.points_inside_characters :
    (∃ d label, ofSource "é" = .error [d] ∧ d.labels = [label] ∧
      ¬label.span.Whole "é".toList) ∧
    ∃ d, ofSource "import // é" = .error [d] ∧
      (Problem.locate "main" "import // é" d).column = 12 ∧
      "import // é".toList.length = 11 := by
  have hs : ((rejections "é").map fun d => d.labels.map (·.span.stop)) =
      [[1]] := by
    decide +kernel
  have hs' : ((rejections "import // é").map fun d =>
      (Problem.locate "main" "import // é" d).column) = [12] := by
    decide +kernel
  constructor
  · obtain ⟨d, hd, hlabels⟩ := List.map_eq_singleton_iff.1 hs
    obtain ⟨label, hl, hstop⟩ := List.map_eq_singleton_iff.1 hlabels
    refine ⟨d, label, ofSource_of_rejections hd, hl, ?_⟩
    exact Span.not_whole_of_stop [] [] 'é' rfl
      (by rw [hstop]; decide) (by rw [hstop]; decide)
  · obtain ⟨d, hd, hcolumn⟩ := List.map_eq_singleton_iff.1 hs'
    exact ⟨d, ofSource_of_rejections hd, hcolumn, by decide⟩

end ModelText
