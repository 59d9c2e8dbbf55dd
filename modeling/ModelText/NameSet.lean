/-!
# Sets of names in the order they were added

`NameSet` keeps distinct names in the order of their first insertion. Units
list their languages this way, and the compiler its work, so the order is part
of what a set means. The list of names is its only view.
-/

namespace ModelText

/-- Distinct names, in the order they were first added. -/
structure NameSet where
  /-- The names, first added first. -/
  toList : List String
  /-- No name is listed twice. -/
  nodup : toList.Nodup
  deriving DecidableEq

namespace NameSet

/-- The set without names. -/
def empty : NameSet := ⟨[], List.nodup_nil⟩

instance : Inhabited NameSet := ⟨empty⟩

instance : Membership String NameSet := ⟨fun s name => name ∈ s.toList⟩

instance (name : String) (s : NameSet) : Decidable (name ∈ s) :=
  inferInstanceAs (Decidable (name ∈ s.toList))

theorem mem_toList {name : String} {s : NameSet} :
    name ∈ s.toList ↔ name ∈ s := Iff.rfl

/-- Whether `name` is in the set. -/
def contains (s : NameSet) (name : String) : Bool := decide (name ∈ s)

/-- Adds `name` behind the names already there; a name already in the set keeps
its place. -/
def insert (s : NameSet) (name : String) : NameSet :=
  if h : name ∈ s.toList then s
  else ⟨s.toList ++ [name], List.nodup_append.2
    ⟨s.nodup, by simp, by
      intro a ha b hb
      rw [List.mem_singleton.1 hb]
      rintro rfl
      exact h ha⟩⟩

/-- Adds the names of a list, from left to right. -/
def insertAll (s : NameSet) (names : List String) : NameSet :=
  names.foldl insert s

/-- The names of a list, each at its first place. -/
def ofList (names : List String) : NameSet := empty.insertAll names

/-- The number of names. -/
def size (s : NameSet) : Nat := s.toList.length

/-- Whether the set has no names. -/
def isEmpty (s : NameSet) : Bool := s.toList.isEmpty

@[simp] theorem toList_empty : empty.toList = [] := rfl

@[simp] theorem contains_eq_true {s : NameSet} {name : String} :
    s.contains name = true ↔ name ∈ s := by simp [contains]

theorem insert_of_mem {s : NameSet} {name : String} (h : name ∈ s) :
    s.insert name = s := dif_pos h

theorem toList_insert_of_not_mem {s : NameSet} {name : String}
    (h : name ∉ s) : (s.insert name).toList = s.toList ++ [name] := by
  simp [insert, show name ∉ s.toList from h]

@[simp] theorem mem_insert {s : NameSet} {name other : String} :
    other ∈ s.insert name ↔ other ∈ s ∨ other = name := by
  by_cases h : name ∈ s
  · rw [insert_of_mem h]
    exact ⟨Or.inl, fun h' => h'.elim id (fun e => e ▸ h)⟩
  · rw [← mem_toList, toList_insert_of_not_mem h]
    simp [mem_toList]

theorem mem_insertAll {names : List String} {s : NameSet} {other : String} :
    other ∈ s.insertAll names ↔ other ∈ s ∨ other ∈ names := by
  induction names generalizing s with
  | nil => simp [insertAll]
  | cons name names ih =>
    have := ih (s := s.insert name)
    simp only [insertAll, List.foldl_cons] at this ⊢
    simp [this, or_assoc]

@[simp] theorem mem_ofList {names : List String} {other : String} :
    other ∈ ofList names ↔ other ∈ names := by
  rw [ofList, mem_insertAll, ← mem_toList]
  simp

end NameSet

end ModelText
