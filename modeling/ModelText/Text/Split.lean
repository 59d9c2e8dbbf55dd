/-!
# Cutting a text at a character

`splitOn` cuts a text at every occurrence of a character, which belongs to no
part; joined with that character the parts give the text back. There is always
at least one part.
-/

namespace ModelText.Text

/-- The parts of a list of characters between the occurrences of `mark`: the
first one and the others. -/
def parts (mark : Char) : List Char → List Char × List (List Char)
  | [] => ([], [])
  | c :: rest =>
    let (first, others) := parts mark rest
    if c = mark then ([], first :: others) else (c :: first, others)

/-- The parts of a text between the occurrences of `mark`. -/
def splitOn (mark : Char) (text : String) : List String :=
  let (first, others) := parts mark text.toList
  (first :: others).map String.ofList

/-- The parts, each after the first one behind a mark, are the text. -/
theorem parts_join (mark : Char) (cs : List Char) :
    (parts mark cs).1 ++ (parts mark cs).2.flatMap (mark :: ·) = cs := by
  induction cs with
  | nil => rfl
  | cons c rest ih =>
    by_cases h : c = mark
    · simp [parts, h, ih]
    · simp [parts, h, ih]

/-- No part holds the mark. -/
theorem mark_not_mem_parts (mark : Char) (cs : List Char) :
    ∀ part ∈ (parts mark cs).1 :: (parts mark cs).2, mark ∉ part := by
  induction cs with
  | nil => simp [parts]
  | cons c rest ih =>
    by_cases h : c = mark
    · simpa [parts, h] using ih
    · simp only [parts, h, ↓reduceIte, List.mem_cons, forall_eq_or_imp] at ih ⊢
      exact ⟨by simpa [Ne.symm h] using ih.1, ih.2⟩

theorem splitOn_ne_nil (mark : Char) (text : String) :
    splitOn mark text ≠ [] := by simp [splitOn]

end ModelText.Text
