/-!
# Tables keyed by name

`NameMap α` holds one entry for each name, in the order in which the names were
first given an entry: replacing an entry keeps its place. Every table whose
order is answered to the outside is of this type. Its view is `get?`, and the
lemmas say what each operation does to that view and to the list of names.
-/

namespace ModelText

/-- A table with one entry for each name, in the order of first entry. -/
structure NameMap (α : Type) where
  /-- The entries, first entered first. -/
  entries : List (String × α)
  /-- No name has two entries. -/
  nodup_names : (entries.map Prod.fst).Nodup

namespace NameMap

variable {α : Type}

/-- The table without entries. -/
def empty : NameMap α := ⟨[], List.nodup_nil⟩

instance : Inhabited (NameMap α) := ⟨empty⟩

/-- The names that have an entry, in order. -/
def names (m : NameMap α) : List String := m.entries.map Prod.fst

/-- The entries without their names, in order. -/
def values (m : NameMap α) : List α := m.entries.map Prod.snd

/-- The number of entries. -/
def size (m : NameMap α) : Nat := m.entries.length

/-- Whether there is no entry. -/
def isEmpty (m : NameMap α) : Bool := m.entries.isEmpty

/-- The entry of a name. -/
def get? (m : NameMap α) (name : String) : Option α := m.entries.lookup name

/-- Whether a name has an entry. -/
def contains (m : NameMap α) (name : String) : Bool := (m.get? name).isSome

/-- Gives `name` the entry `f old`, in place if it had the entry `old` and
behind all others if it had none. -/
def updateEntries (name : String) (f : Option α → α) :
    List (String × α) → List (String × α)
  | [] => [(name, f none)]
  | (other, value) :: rest =>
    if other = name then (other, f (some value)) :: rest
    else (other, value) :: updateEntries name f rest

theorem map_fst_updateEntries (name : String) (f : Option α → α)
    (entries : List (String × α)) :
    (updateEntries name f entries).map Prod.fst =
      if name ∈ entries.map Prod.fst then entries.map Prod.fst
      else entries.map Prod.fst ++ [name] := by
  induction entries with
  | nil => rfl
  | cons entry rest ih =>
    obtain ⟨other, value⟩ := entry
    by_cases h : other = name
    · simp [updateEntries, h]
    · simp only [updateEntries, h, ↓reduceIte, List.map_cons, ih,
        List.mem_cons, Ne.symm h, false_or]
      split <;> rfl

/-- Gives `name` the entry `f old`, where `old` is the entry it had, if any. -/
def update (m : NameMap α) (name : String) (f : Option α → α) : NameMap α where
  entries := updateEntries name f m.entries
  nodup_names := by
    rw [map_fst_updateEntries]
    split
    · exact m.nodup_names
    · rename_i h
      refine List.nodup_append.2 ⟨m.nodup_names, by simp, ?_⟩
      intro a ha b hb
      rw [List.mem_singleton.1 hb]
      rintro rfl
      exact h ha

/-- Gives `name` the entry `value`. -/
def insert (m : NameMap α) (name : String) (value : α) : NameMap α :=
  m.update name fun _ => value

/-- Removes the entry of `name`; the others keep their order. -/
def erase (m : NameMap α) (name : String) : NameMap α where
  entries := m.entries.filter fun entry => entry.1 != name
  nodup_names := List.Nodup.sublist
    (List.Sublist.map _ List.filter_sublist) m.nodup_names

/-- Changes each entry or leaves it out; the others keep their order. -/
def filterMap {β : Type} (m : NameMap α) (f : String → α → Option β) :
    NameMap β where
  entries := m.entries.filterMap fun entry =>
    (f entry.1 entry.2).map fun value => (entry.1, value)
  nodup_names := by
    refine List.Nodup.sublist ?_ m.nodup_names
    induction m.entries with
    | nil => simp
    | cons entry rest ih =>
      cases h : f entry.1 entry.2 with
      | none => simpa [h] using ih.cons _
      | some value => simpa [h] using ih

/-- The table of a list of entries; of two entries of one name the later one
counts, at the place of the earlier one. -/
def ofList (entries : List (String × α)) : NameMap α :=
  entries.foldl (fun m entry => m.insert entry.1 entry.2) empty

@[simp] theorem get?_empty (name : String) :
    (empty : NameMap α).get? name = none := rfl

theorem lookup_cons (name : String) (entry : String × α)
    (rest : List (String × α)) :
    (entry :: rest).lookup name =
      if name = entry.1 then some entry.2 else rest.lookup name := by
  rw [List.lookup_cons]
  by_cases h : name = entry.1
  · simp [h]
  · simp [h, beq_eq_false_iff_ne.2 h]

theorem lookup_updateEntries (name other : String) (f : Option α → α)
    (entries : List (String × α)) :
    (updateEntries name f entries).lookup other =
      if other = name then some (f (entries.lookup name))
      else entries.lookup other := by
  induction entries with
  | nil => simp [updateEntries, lookup_cons]
  | cons entry rest ih =>
    obtain ⟨first, value⟩ := entry
    simp only [updateEntries, lookup_cons]
    grind [lookup_cons]

theorem get?_update (m : NameMap α) (name other : String) (f : Option α → α) :
    (m.update name f).get? other =
      if other = name then some (f (m.get? name)) else m.get? other :=
  lookup_updateEntries name other f m.entries

theorem get?_insert (m : NameMap α) (name other : String) (value : α) :
    (m.insert name value).get? other =
      if other = name then some value else m.get? other :=
  get?_update m name other _

theorem names_update (m : NameMap α) (name : String) (f : Option α → α) :
    (m.update name f).names =
      if name ∈ m.names then m.names else m.names ++ [name] :=
  map_fst_updateEntries name f m.entries

theorem names_erase (m : NameMap α) (name : String) :
    (m.erase name).names = m.names.filter (· != name) := by
  simp [names, erase, List.filter_map, Function.comp_def]

theorem get?_erase (m : NameMap α) (name other : String) :
    (m.erase name).get? other =
      if other = name then none else m.get? other := by
  simp only [get?, erase]
  induction m.entries with
  | nil => simp
  | cons entry rest ih => grind [lookup_cons]

end NameMap

end ModelText
