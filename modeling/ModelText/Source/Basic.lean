import ModelText.NameMap
import ModelText.NameSet

/-!
# Where units come from

`Sources` gives the text of a unit by its name. All the texts it can give are
known beforehand, although the names under which it gives them need not be: a
file has many paths. Because the texts are known, so are the units that they
can import, and the search for imported units comes to an end.
-/

namespace ModelText

/-- A supply of unit texts. -/
structure Sources where
  /-- The text of a unit, if there is one. -/
  fetch : String → Option String
  /-- All texts that there are. -/
  texts : List String
  /-- Only these texts are given out. -/
  mem_texts : ∀ {name text}, fetch name = some text → text ∈ texts

namespace Sources

/-- The supply that first looks into one supply and then into another. -/
def orElse (first second : Sources) : Sources where
  fetch name := (first.fetch name).orElse fun _ => second.fetch name
  texts := first.texts ++ second.texts
  mem_texts {name text} h := by
    cases hf : first.fetch name with
    | some found =>
      rw [hf] at h
      exact List.mem_append_left _ (first.mem_texts (hf.trans h))
    | none =>
      rw [hf] at h
      exact List.mem_append_right _ (second.mem_texts h)

end Sources

namespace NameMap

theorem get?_mem_values {α : Type} {m : NameMap α} {name : String} {value : α}
    (h : m.get? name = some value) : value ∈ m.values := by
  revert h
  simp only [get?, values]
  induction m.entries with
  | nil => simp
  | cons entry rest ih => grind [lookup_cons]

/-- A table of texts as a supply. -/
def sources (m : NameMap String) : Sources where
  fetch := m.get?
  texts := m.values
  mem_texts := get?_mem_values

/-- The names that one of two tables has, those of the first one in front. -/
def namesOfBoth (first second : NameMap String) : List String :=
  (NameSet.ofList (first.names ++ second.names)).toList

end NameMap

end ModelText
