import ModelText.Proofs.Token.Spelling

/-!
# Tokens tile a text

Where a text has no faults, its tokens and what may stand between them make up
the whole text. What may stand between them are blanks, and comments that go on
to the end of their line. Each token takes the longest part of the text that
denotes one, and no character of a name follows where it could run into it.
-/

namespace ModelText.Token

/-- What may stand in front of a text: blanks, and comments that go to the end of
their line. -/
inductive Gap (after : List Char) : List Char → Prop
  | nil : Gap after []
  | blank {c : Char} {rest : List Char} : isBlank c = true → Gap after rest →
    Gap after (c :: rest)
  | comment {words rest : List Char} : '\n' ∉ words →
    (∀ c ∈ (rest ++ after).head?, c = '\n') → Gap after rest →
    Gap after ('/' :: '/' :: (words ++ rest))

/-- A text behind another one, piece by piece: a gap, a token with its place, and
so on, and a gap at the end. -/
inductive Tiled : List Char → List Char → List (Spanned Token) → Prop
  | last {before gap : List Char} : Gap [] gap → Tiled before gap []
  | token {before gap part after : List Char} {t : Spanned Token}
      {tokens : List (Spanned Token)} : Gap (part ++ after) gap →
    Stands part after t.value →
    t.span.start = byteLength (before ++ gap) →
    t.span.stop = byteLength (before ++ gap ++ part) →
    Tiled (before ++ gap ++ part) after tokens →
    Tiled before (gap ++ (part ++ after)) (t :: tokens)

/-! ### Gaps -/

theorem Gap.append {after gap gap' : List Char} (h : Gap (gap' ++ after) gap)
    (h' : Gap after gap') : Gap after (gap ++ gap') := by
  induction h with
  | nil => exact h'
  | blank hc _ ih => exact .blank hc ih
  | @comment words rest hw hends _ ih =>
    rw [List.cons_append, List.cons_append, List.append_assoc]
    refine .comment hw ?_ ih
    rwa [List.append_assoc]

theorem gap_of_blanks {after cs : List Char} (h : ∀ c ∈ cs, isBlank c = true) :
    Gap after cs := by
  induction cs with
  | nil => exact .nil
  | cons c rest ih =>
    refine .blank (h c List.mem_cons_self) (ih fun d hd => ?_)
    exact h d (List.mem_cons_of_mem c hd)

/-- What is passed over are blanks, or two strokes and the rest of their line. -/
theorem blank_cases {c : Char} {rest : List Char} {more : Nat}
    (h : read c rest = ⟨.blank, more⟩) :
    (isBlank c = true ∧ rest.take more = rest.takeWhile isBlank) ∨
      (c = '/' ∧ ∃ tail, rest = '/' :: tail ∧
        rest.take more = '/' :: tail.takeWhile (· != '\n') ∧
        rest.drop more = tail.dropWhile (· != '\n')) := by
  unfold read at h
  dsimp only at h
  split at h
  · next hc =>
    cases h
    exact .inl ⟨hc, take_countWhile isBlank rest⟩
  split at h
  · next hc =>
    obtain ⟨rfl, hr⟩ := hc
    obtain ⟨tail, rfl⟩ := List.head?_eq_some_iff.1 hr
    cases h
    exact .inr ⟨rfl, tail, rfl, take_countWhile _ _, drop_countWhile _ _⟩
  split at h
  · unfold readString at h
    dsimp only at h
    split at h <;> cases h
  split at h
  · unfold readNumber at h
    split at h <;> cases h
  split at h
  · cases h
  · unfold readMark at h
    split at h
    · cases h
    · split at h <;> cases h

theorem not_mem_takeWhile_ne (c : Char) (cs : List Char) :
    c ∉ cs.takeWhile (· != c) := fun hm => by
  simpa using List.mem_takeWhile_imp hm

/-- What is passed over is a gap. -/
theorem gap_of_read {c : Char} {rest : List Char} {more : Nat}
    (h : read c rest = ⟨.blank, more⟩) :
    Gap (rest.drop more) (c :: rest.take more) := by
  rcases blank_cases h with ⟨hc, htake⟩ | ⟨rfl, tail, rfl, htake, hdrop⟩
  · rw [htake]
    exact .blank hc (gap_of_blanks fun d hd => List.mem_takeWhile_imp hd)
  · rw [htake, hdrop]
    have hends : ∀ d ∈ ([] ++ tail.dropWhile (· != '\n')).head?, d = '\n' := by
      intro d hd
      have hnot := List.head?_dropWhile_not (· != '\n') tail
      rw [List.nil_append] at hd
      rw [hd] at hnot
      simpa using hnot
    have hgap := Gap.comment (not_mem_takeWhile_ne '\n' tail) hends .nil
    rwa [List.append_nil] at hgap

/-- A gap in front of what is tiled belongs to its first gap. -/
theorem Tiled.cons_gap {before gap rest : List Char}
    {tokens : List (Spanned Token)} (h : Tiled (before ++ gap) rest tokens)
    (hg : Gap rest gap) : Tiled before (gap ++ rest) tokens := by
  cases h with
  | last h =>
    refine .last (Gap.append ?_ h)
    rwa [List.append_nil]
  | @token _ gap' part after t tokens h hs hstart hstop ht =>
    rw [← List.append_assoc]
    rw [List.append_assoc before] at hstart hstop ht
    exact .token (hg.append h) hs hstart hstop ht

/-- A token right behind what stands before. -/
theorem Tiled.cons_token {before part after : List Char} {t : Token}
    {tokens : List (Spanned Token)} (h : Tiled (before ++ part) after tokens)
    (hs : Stands part after t) :
    Tiled before (part ++ after) (⟨t, Span.between (byteLength before)
      (byteLength before + byteLength part)⟩ :: tokens) := by
  have hstop : byteLength (before ++ part) =
      max (byteLength before) (byteLength before + byteLength part) := by
    rw [byteLength_append]
    omega
  apply @Tiled.token before [] part after
  · exact .nil
  · exact hs
  · rw [List.append_nil]
    rfl
  · rw [List.append_nil]
    exact hstop.symm
  · rwa [List.append_nil]

/-! ### Reading -/

/-- Without faults, the pieces of a text tile it. -/
theorem tiled_place {before cs : List Char}
    (h : errorsOf (place (byteLength before) (cuts cs)) = []) :
    Tiled before cs (tokensOf (place (byteLength before) (cuts cs))) := by
  fun_induction cuts cs generalizing before with
  | case1 => exact .last .nil
  | case2 c rest piece more hr ih =>
    rw [place, ← byteLength_append] at h ⊢
    have hsplit : c :: rest = (c :: rest.take more) ++ rest.drop more := by
      rw [List.cons_append, List.take_append_drop]
    cases piece with
    | blank =>
      rw [hsplit]
      exact (ih h).cons_gap (gap_of_read hr)
    | token t =>
      rw [hsplit]
      exact (ih h).cons_token (stands_of_read hr)
    | fault fault start stop => cases h

/-! ### Places -/

variable {before rest : List Char} {tokens : List (Spanned Token)}

theorem Denotes.ne_nil {cs : List Char} {t : Token} (h : Denotes cs t) :
    cs ≠ [] := by
  obtain ⟨c, rest, rfl, -⟩ := read_of_denotes h
  exact List.cons_ne_nil c rest

theorem Tiled.le_start (h : Tiled before rest tokens) :
    ∀ t ∈ tokens, byteLength before ≤ t.span.start := by
  induction h with
  | last => exact nofun
  | token _ _ hstart _ _ ih =>
    intro t ht
    rcases List.mem_cons.1 ht with rfl | ht
    · rw [hstart, byteLength_append]
      exact Nat.le_add_right _ _
    · have := ih t ht
      rw [byteLength_append, byteLength_append] at this
      omega

theorem Tiled.start_lt_stop (h : Tiled before rest tokens) :
    ∀ t ∈ tokens, t.span.start < t.span.stop := by
  induction h with
  | last => exact nofun
  | @token before gap part _ _ _ _ hs hstart hstop _ ih =>
    intro t ht
    rcases List.mem_cons.1 ht with rfl | ht
    · rw [hstart, hstop, byteLength_append (before ++ gap) part]
      exact Nat.lt_add_of_pos_right (byteLength_pos hs.denotes.ne_nil)
    · exact ih t ht

theorem Tiled.ordered (h : Tiled before rest tokens) :
    tokens.Pairwise fun t t' => t.span.stop ≤ t'.span.start := by
  induction h with
  | last => exact .nil
  | token _ _ _ hstop ht ih =>
    refine .cons (fun t' ht' => ?_) ih
    rw [hstop]
    exact ht.le_start t' ht'

theorem Tiled.stands (h : Tiled before rest tokens) :
    ∀ t ∈ tokens, ∃ front part after,
      before ++ rest = front ++ (part ++ after) ∧
      t.span.start = byteLength front ∧
      t.span.stop = byteLength (front ++ part) ∧ Stands part after t.value := by
  induction h with
  | last => exact nofun
  | @token before gap part after t tokens _ hs hstart hstop _ ih =>
    intro t' ht'
    rcases List.mem_cons.1 ht' with rfl | ht'
    · refine ⟨before ++ gap, part, after, ?_, hstart, hstop, hs⟩
      rw [List.append_assoc]
    · obtain ⟨front, part', after', htext, hx⟩ := ih t' ht'
      refine ⟨front, part', after', ?_, hx⟩
      rw [← htext]
      simp only [List.append_assoc]

/-- The stretches before, between and behind tokens, from one offset up to
another one. -/
def gapsBetween (start stop : Nat) : List (Spanned Token) → List (Nat × Nat)
  | [] => [(start, stop)]
  | t :: rest => (start, t.span.start) :: gapsBetween t.span.stop stop rest

theorem Tiled.gaps (h : Tiled before rest tokens) :
    ∀ stretch ∈ gapsBetween (byteLength before) (byteLength (before ++ rest))
        tokens,
      ∃ front gap after, before ++ rest = front ++ (gap ++ after) ∧
        stretch = (byteLength front, byteLength (front ++ gap)) ∧
        Gap after gap := by
  induction h with
  | @last before gap hg =>
    intro stretch hs
    refine ⟨before, gap, [], by rw [List.append_nil], ?_, hg⟩
    exact List.mem_singleton.1 hs
  | @token before gap part after t tokens hg _ hstart hstop _ ih =>
    have hsame : before ++ (gap ++ (part ++ after)) =
        before ++ gap ++ part ++ after := by
      simp only [List.append_assoc]
    intro stretch hs
    rcases List.mem_cons.1 hs with rfl | hs
    · exact ⟨before, gap, part ++ after, rfl, by rw [hstart], hg⟩
    · rw [hstop, hsame] at hs
      rw [hsame]
      exact ih stretch hs

/-! ### Tokens of a text -/

theorem tiled_of_scan {source : String} (h : scan source = .ok tokens) :
    Tiled [] source.toList tokens := by
  unfold scan at h
  dsimp only at h
  split at h
  · next he =>
    cases h
    exact tiled_place (List.isEmpty_iff.1 he)
  · cases h

/-- Tokens and gaps take turns in a text. -/
structure Tiles (text : List Char) (tokens : List (Spanned Token)) : Prop where
  nonempty : ∀ t ∈ tokens, t.span.start < t.span.stop
  /-- Each token ends before the next one starts. -/
  ordered : tokens.Pairwise fun t t' => t.span.stop ≤ t'.span.start
  /-- A token takes whole characters of the text, which denote no other one. -/
  stands : ∀ t ∈ tokens, ∃ before part after,
    text = before ++ (part ++ after) ∧ t.span.start = byteLength before ∧
      t.span.stop = byteLength (before ++ part) ∧ Stands part after t.value ∧
      ∀ value, Denotes part value → value = t.value
  /-- Before, between and behind the tokens there are gaps. -/
  gaps : ∀ stretch ∈ gapsBetween 0 (byteLength text) tokens,
    ∃ before gap after, text = before ++ (gap ++ after) ∧
      stretch = (byteLength before, byteLength (before ++ gap)) ∧
      Gap after gap

/-- **The tokens of a text tile it.** -/
theorem tokenize_tiles {source : String} {tokens : List (Spanned Token)}
    (h : tokenize source = .ok tokens) : Tiles source.toList tokens := by
  rw [tokenize_eq] at h
  split at h
  · next he =>
    cases h
    have hnone : errorsOf (lexemes source) = [] := by
      rwa [diagnostics, List.isEmpty_map, List.isEmpty_iff] at he
    have ht : Tiled [] source.toList (tokensOf (lexemes source)) :=
      tiled_place hnone
    refine ⟨ht.start_lt_stop, ht.ordered, fun t hm => ?_, ht.gaps⟩
    obtain ⟨front, part, after, htext, hstart, hstop, hs⟩ := ht.stands t hm
    exact ⟨front, part, after, htext, hstart, hstop, hs,
      fun _ hv => hv.unique hs.denotes⟩
  · cases h

/-- Three tokens, and a comment behind them with a character of two bytes. -/
theorem tokenize_tiles_assignment :
    let source := "x1 = -12 // é\n"
    ∃ tokens, tokenize source = .ok tokens ∧
      tokens.map (fun t => (t.span.start, t.span.stop)) =
        [(0, 2), (3, 4), (5, 8)] ∧
      Tiles source.toList tokens := by
  intro source
  have hd : (diagnostics source).isEmpty = true := by decide +kernel
  have h : tokenize source = .ok (tokensOf (lexemes source)) := by
    rw [tokenize_eq, if_pos hd]
  exact ⟨_, h, by decide +kernel, tokenize_tiles h⟩

end ModelText.Token
