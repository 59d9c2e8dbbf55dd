import ModelText.Text.Split

/-!
# Cutting and joining

Cutting a text at a mark and joining parts with it undo each other, as long as
there is a part and none of them has the mark.
-/

namespace ModelText.Text

theorem parts_of_not_mem {mark : Char} {cs : List Char} (h : mark ∉ cs) :
    parts mark cs = (cs, []) := by
  induction cs with
  | nil => rfl
  | cons c rest ih =>
    rw [List.mem_cons, not_or] at h
    rw [parts, ih h.2]
    exact if_neg (Ne.symm h.1)

theorem parts_append_mark (mark : Char) (front back : List Char) :
    parts mark (front ++ mark :: back) =
      ((parts mark front).1,
        (parts mark front).2 ++ (parts mark back).1 :: (parts mark back).2) := by
  induction front with
  | nil => simp [parts]
  | cons c rest ih =>
    by_cases h : c = mark
    · simp [parts, ih, h]
    · simp [parts, ih, h]

theorem splitOn_eq (mark : Char) (text : String) : splitOn mark text =
    ((parts mark text.toList).1 :: (parts mark text.toList).2).map
      String.ofList := rfl

theorem splitOn_of_not_mem {mark : Char} {text : String}
    (h : mark ∉ text.toList) : splitOn mark text = [text] := by
  rw [splitOn_eq, parts_of_not_mem h]
  simp

theorem splitOn_append (mark : Char) (front back : String) :
    splitOn mark (front ++ String.singleton mark ++ back) =
      splitOn mark front ++ splitOn mark back := by
  rw [splitOn_eq, splitOn_eq, splitOn_eq, String.toList_append,
    String.toList_append, String.toList_singleton, List.append_assoc,
    List.singleton_append, parts_append_mark]
  simp

theorem mark_not_mem_splitOn {mark : Char} {text part : String}
    (h : part ∈ splitOn mark text) : mark ∉ part.toList := by
  rw [splitOn_eq] at h
  obtain ⟨cs, hm, rfl⟩ := List.mem_map.1 h
  rw [String.toList_ofList]
  exact mark_not_mem_parts mark text.toList cs hm

theorem mem_of_mem_splitOn {mark c : Char} {text part : String}
    (h : part ∈ splitOn mark text) (hc : c ∈ part.toList) : c ∈ text.toList := by
  rw [splitOn_eq] at h
  obtain ⟨cs, hm, rfl⟩ := List.mem_map.1 h
  rw [String.toList_ofList] at hc
  rw [← parts_join mark text.toList]
  rcases List.mem_cons.1 hm with rfl | hm
  · exact List.mem_append_left _ hc
  · exact List.mem_append_right _
      (List.mem_flatMap.2 ⟨cs, hm, List.mem_cons_of_mem _ hc⟩)

theorem mem_of_mem_intercalate {mark c : Char} {texts : List String}
    (h : c ∈ ((String.singleton mark).intercalate texts).toList) :
    c = mark ∨ ∃ text ∈ texts, c ∈ text.toList := by
  induction texts with
  | nil => simp at h
  | cons text rest ih =>
    by_cases hrest : rest = []
    · rw [hrest, String.intercalate_singleton] at h
      exact .inr ⟨text, List.mem_cons_self, h⟩
    · rw [String.intercalate_cons_of_ne_nil hrest, String.toList_append,
        String.toList_append, List.append_assoc, List.mem_append,
        List.mem_append] at h
      rcases h with h | h | h
      · exact .inr ⟨text, List.mem_cons_self, h⟩
      · exact .inl (by simpa using h)
      · exact (ih h).imp_right fun ⟨other, hm, hc⟩ =>
          ⟨other, List.mem_cons_of_mem _ hm, hc⟩

theorem splitOn_intercalate {mark : Char} {texts : List String}
    (hne : texts ≠ []) (h : ∀ text ∈ texts, mark ∉ text.toList) :
    splitOn mark ((String.singleton mark).intercalate texts) = texts := by
  induction texts with
  | nil => exact absurd rfl hne
  | cons text rest ih =>
    have htext := splitOn_of_not_mem (h text List.mem_cons_self)
    by_cases hrest : rest = []
    · rw [hrest, String.intercalate_singleton, htext]
    · rw [String.intercalate_cons_of_ne_nil hrest, splitOn_append, htext,
        ih hrest fun other ho => h other (List.mem_cons_of_mem _ ho)]
      rfl

theorem intercalate_splitOn (mark : Char) (text : String) :
    (String.singleton mark).intercalate (splitOn mark text) = text := by
  have hjoin : ∀ (first : List Char) (others : List (List Char)),
      ((String.singleton mark).intercalate
        ((first :: others).map String.ofList)).toList =
      first ++ others.flatMap (mark :: ·) := by
    intro first others
    induction others generalizing first with
    | nil => simp
    | cons second others ih =>
      rw [List.map_cons, String.intercalate_cons_of_ne_nil (by simp),
        String.toList_append, ih]
      simp
  rw [← String.toList_inj, splitOn_eq, hjoin]
  exact parts_join mark text.toList

/-- The text that parts are joined to is found by cutting it into them. -/
theorem eq_intercalate_of_splitOn {mark : Char} {text : String}
    {texts : List String} (h : splitOn mark text = texts) :
    text = (String.singleton mark).intercalate texts := by
  rw [← h, intercalate_splitOn]

/-- Two parts that follow each other have the mark between them. -/
theorem exists_of_splitOn_eq {mark : Char} {text part next : String}
    {front back : List String}
    (h : splitOn mark text = front ++ part :: next :: back) :
    ∃ before behind, text =
      before ++ part ++ String.singleton mark ++ (next ++ behind) := by
  have hnext : ∃ behind,
      (String.singleton mark).intercalate (next :: back) = next ++ behind := by
    by_cases hb : back = []
    · exact ⟨"", by rw [hb, String.intercalate_singleton, String.append_empty]⟩
    · rw [String.intercalate_cons_of_ne_nil hb, String.append_assoc]
      exact ⟨_, rfl⟩
  obtain ⟨behind, hnext⟩ := hnext
  rw [eq_intercalate_of_splitOn h]
  by_cases hf : front = []
  · refine ⟨"", behind, ?_⟩
    rw [hf, List.nil_append, String.intercalate_cons_of_ne_nil (by simp), hnext,
      String.empty_append]
  · refine ⟨(String.singleton mark).intercalate front ++ String.singleton mark,
      behind, ?_⟩
    rw [String.intercalate_append_of_ne_nil hf (by simp),
      String.intercalate_cons_of_ne_nil (by simp), hnext]
    simp only [String.append_assoc]

end ModelText.Text
