import ModelText.NameSet
import Mathlib.Data.List.Induction

/-!
# More on sets of names

The list of a set grows at its end only: what is added stands behind what was
there, in the order in which it is added and without the names already there.
Leaving a name out leaves all others at their places.
-/

namespace ModelText.NameSet

theorem toList_insert (s : NameSet) (name : String) :
    (s.insert name).toList =
      if name ∈ s.toList then s.toList else s.toList ++ [name] := by
  by_cases h : name ∈ s.toList
  · rw [if_pos h, insert_of_mem h]
  · rw [if_neg h, toList_insert_of_not_mem h]

theorem toList_insertAll {names : List String} (hn : names.Nodup) (s : NameSet) :
    (s.insertAll names).toList =
      s.toList ++ names.filter (· ∉ s) := by
  induction names generalizing s with
  | nil => exact (List.append_nil _).symm
  | cons name rest ih =>
    obtain ⟨hname, hrest⟩ := List.nodup_cons.1 hn
    change ((s.insert name).insertAll rest).toList = _
    have hkept : rest.filter (· ∉ s.insert name) = rest.filter (· ∉ s) := by
      refine List.filter_congr fun other ho => ?_
      have hne : other ≠ name := fun he => hname (he ▸ ho)
      simp [mem_insert, hne]
    rw [ih hrest, hkept, toList_insert]
    by_cases h : name ∈ s.toList
    · rw [if_pos h, List.filter_cons_of_neg (by simpa [← mem_toList] using h)]
    · rw [if_neg h, List.filter_cons_of_pos (by simpa [← mem_toList] using h),
        List.append_assoc]
      rfl

theorem ofList_append (names more : List String) :
    ofList (names ++ more) = (ofList names).insertAll more :=
  List.foldl_append

theorem toList_ofList_append_singleton (names : List String) (name : String) :
    (ofList (names ++ [name])).toList =
      if name ∈ (ofList names).toList then (ofList names).toList
      else (ofList names).toList ++ [name] := by
  rw [ofList_append]
  exact toList_insert _ _

/-- Leaving a name out leaves the others at their places. -/
theorem toList_ofList_filter (names : List String) (name : String) :
    (ofList (names.filter (· != name))).toList =
      (ofList names).toList.filter (· != name) := by
  induction names using List.reverseRecOn with
  | nil => rfl
  | append_singleton names last ih =>
    rw [List.filter_append, toList_ofList_append_singleton]
    by_cases hl : last = name
    · have hnone : [last].filter (· != name) = [] := by simp [hl]
      rw [hnone, List.append_nil, ih]
      split
      · rfl
      · rw [List.filter_append, hnone, List.append_nil]
    · have hone : [last].filter (· != name) = [last] := by simp [hl]
      have hmem : last ∈ (ofList names).toList.filter (· != name) ↔
          last ∈ (ofList names).toList := by simp [List.mem_filter, hl]
      rw [hone, toList_ofList_append_singleton, ih]
      by_cases hm : last ∈ (ofList names).toList
      · rw [if_pos hm, if_pos (hmem.2 hm)]
      · rw [if_neg hm, if_neg (hmem.not.2 hm), List.filter_append, hone]

end ModelText.NameSet
