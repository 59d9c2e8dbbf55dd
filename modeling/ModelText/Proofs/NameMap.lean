import ModelText.NameMap
import Mathlib.Data.List.Basic

/-!
# More on tables

A table is the list of its entries, so an entry is found under a name just when
it is in the list. Changing the entries one by one commutes with looking them up
and with changing one of them before.
-/

namespace ModelText.NameMap

variable {α β γ : Type}

theorem ext {m m' : NameMap α} (h : m.entries = m'.entries) : m = m' := by
  cases m
  cases m'
  cases h
  rfl

/-! ### Entries -/

theorem get?_eq_some_iff {m : NameMap α} {name : String} {value : α} :
    m.get? name = some value ↔ (name, value) ∈ m.entries := by
  obtain ⟨entries, h⟩ := m
  change entries.lookup name = some value ↔ (name, value) ∈ entries
  induction entries with
  | nil => simp
  | cons entry rest ih =>
    obtain ⟨other, found⟩ := entry
    obtain ⟨hn, hd⟩ := List.nodup_cons.1 h
    rw [lookup_cons, List.mem_cons]
    by_cases ho : name = other
    · subst ho
      rw [if_pos rfl]
      constructor
      · intro hs
        cases hs
        exact .inl rfl
      · rintro (hs | hm)
        · cases hs
          rfl
        · exact absurd (List.mem_map.2 ⟨_, hm, rfl⟩) hn
    · rw [if_neg ho, ih hd]
      constructor
      · exact .inr
      · rintro (hs | hm)
        · cases hs
          exact absurd rfl ho
        · exact hm

theorem exists_of_mem_getD {m : NameMap (List α)} {name : String} {x : α}
    (h : x ∈ (m.get? name).getD []) : ∃ list, m.get? name = some list ∧ x ∈ list := by
  cases hl : m.get? name with
  | none =>
    rw [hl] at h
    cases h
  | some list =>
    rw [hl] at h
    exact ⟨list, rfl, h⟩

theorem contains_eq_false_iff {m : NameMap α} {name : String} :
    m.contains name = false ↔ name ∉ m.names := by
  unfold contains get? names
  induction m.entries with
  | nil => simp
  | cons entry rest ih =>
    rw [lookup_cons, List.map_cons, List.mem_cons]
    by_cases ho : name = entry.1
    · simp [ho]
    · simp [ho, ih]

theorem entries_insert_of_not_mem {m : NameMap α} {name : String} {value : α}
    (h : name ∉ m.names) :
    (m.insert name value).entries = m.entries ++ [(name, value)] := by
  obtain ⟨entries, hd⟩ := m
  change updateEntries name (fun _ => value) entries =
    entries ++ [(name, value)]
  change name ∉ entries.map Prod.fst at h
  clear hd
  induction entries with
  | nil => rfl
  | cons entry rest ih =>
    obtain ⟨other, found⟩ := entry
    rw [List.map_cons, List.mem_cons, not_or] at h
    rw [updateEntries, if_neg (Ne.symm h.1), ih h.2]
    rfl

theorem get?_filterMap (m : NameMap α) (f : String → α → Option β)
    (name : String) :
    (m.filterMap f).get? name = (m.get? name).bind (f name) := by
  have hm : ∀ value, (m.filterMap f).get? name = some value ↔
      (m.get? name).bind (f name) = some value := by
    intro value
    rw [get?_eq_some_iff, Option.bind_eq_some_iff]
    change (name, value) ∈ m.entries.filterMap _ ↔ _
    rw [List.mem_filterMap]
    constructor
    · rintro ⟨⟨other, found⟩, he, hf⟩
      obtain ⟨v, hv, he'⟩ := Option.map_eq_some_iff.1 hf
      cases he'
      exact ⟨found, get?_eq_some_iff.2 he, hv⟩
    · rintro ⟨found, hf, hv⟩
      refine ⟨(name, found), get?_eq_some_iff.1 hf, ?_⟩
      exact Option.map_eq_some_iff.2 ⟨value, hv, rfl⟩
  cases hb : (m.get? name).bind (f name) with
  | some value => exact (hm value).2 hb
  | none =>
    cases hf : (m.filterMap f).get? name with
    | none => rfl
    | some value =>
      rw [(hm value).1 hf] at hb
      cases hb

theorem update_update (m : NameMap α) (name : String)
    (f g : Option α → α) :
    (m.update name f).update name g =
      m.update name fun old => g (some (f old)) := by
  apply ext
  change updateEntries name g (updateEntries name f m.entries) =
    updateEntries name (fun old => g (some (f old))) m.entries
  induction m.entries with
  | nil => simp [updateEntries]
  | cons entry rest ih =>
    obtain ⟨other, value⟩ := entry
    by_cases h : other = name
    · simp [updateEntries, h]
    · simp [updateEntries, h, ih]

/-- One more behind those of a name is one more of all. -/
theorem length_flatten_update (m : NameMap (List α)) (name : String) (x : α) :
    (m.update name fun old => old.getD [] ++ [x]).values.flatten.length =
      m.values.flatten.length + 1 := by
  change ((updateEntries name _ m.entries).map Prod.snd).flatten.length =
    (m.entries.map Prod.snd).flatten.length + 1
  induction m.entries with
  | nil => rfl
  | cons entry rest ih =>
    obtain ⟨other, found⟩ := entry
    rw [updateEntries]
    split
    · simp only [List.map_cons, List.flatten_cons, List.length_append,
        Option.getD_some, List.length_singleton]
      omega
    · simp only [List.map_cons, List.flatten_cons, List.length_append, ih]
      omega

/-- What is taken out under a name and what stays are all there was. -/
theorem length_flatten_erase (m : NameMap (List α)) (name : String) :
    (m.erase name).values.flatten.length +
      ((m.get? name).getD []).length = m.values.flatten.length := by
  obtain ⟨entries, hd⟩ := m
  change ((entries.filter (·.1 != name)).map Prod.snd).flatten.length +
    ((entries.lookup name).getD []).length =
      (entries.map Prod.snd).flatten.length
  induction entries with
  | nil => rfl
  | cons entry rest ih =>
    obtain ⟨other, found⟩ := entry
    obtain ⟨hn, hd⟩ := List.nodup_cons.1 hd
    rw [lookup_cons]
    by_cases ho : name = other
    · have hrest : rest.filter (·.1 != name) = rest := by
        refine List.filter_eq_self.2 fun entry he => bne_iff_ne.2 fun hk => ?_
        exact hn (List.mem_map.2 ⟨entry, he, hk.trans ho⟩)
      rw [if_pos ho, List.filter_cons_of_neg (by simp [ho]), hrest,
        List.map_cons, List.flatten_cons, List.length_append,
        Option.getD_some, Nat.add_comm]
    · rw [if_neg ho, List.filter_cons_of_pos (by simpa using Ne.symm ho),
        List.map_cons, List.map_cons, List.flatten_cons, List.flatten_cons,
        List.length_append, List.length_append, Nat.add_assoc, ih hd]

/-! ### Entries changed one by one -/

/-- Changes each entry; the names and their order stay. -/
def map (f : α → β) (m : NameMap α) : NameMap β where
  entries := m.entries.map fun entry => (entry.1, f entry.2)
  nodup_names := by
    have h := m.nodup_names
    simpa [Function.comp_def] using h

@[simp] theorem map_empty (f : α → β) : (empty : NameMap α).map f = empty :=
  rfl

theorem get?_map (f : α → β) (m : NameMap α) (name : String) :
    (m.map f).get? name = (m.get? name).map f := by
  simp only [get?, map]
  induction m.entries with
  | nil => rfl
  | cons entry rest ih =>
    rw [List.map_cons, lookup_cons, lookup_cons]
    by_cases h : name = entry.1
    · simp [h]
    · simp [h, ih]

theorem updateEntries_map {f : α → β} {h : Option α → α} {h' : Option β → β}
    (hf : ∀ old, h' (old.map f) = f (h old)) (name : String)
    (entries : List (String × α)) :
    updateEntries name h' (entries.map fun entry => (entry.1, f entry.2)) =
      (updateEntries name h entries).map fun entry => (entry.1, f entry.2) := by
  induction entries with
  | nil => simp [updateEntries, ← hf]
  | cons entry rest ih =>
    obtain ⟨other, value⟩ := entry
    by_cases hn : other = name
    · simp [updateEntries, hn, ← hf]
    · simp [updateEntries, hn, ih]

theorem update_map {f : α → β} {h : Option α → α} {h' : Option β → β}
    (hf : ∀ old, h' (old.map f) = f (h old)) (m : NameMap α) (name : String) :
    (m.map f).update name h' = (m.update name h).map f :=
  ext (updateEntries_map hf name m.entries)

theorem map_map (f : α → β) (g : β → γ) (m : NameMap α) :
    (m.map f).map g = m.map (g ∘ f) :=
  ext (by simp [map, Function.comp_def])

theorem map_congr {f g : α → β} {m : NameMap α}
    (h : ∀ entry ∈ m.entries, f entry.2 = g entry.2) : m.map f = m.map g :=
  ext (List.map_congr_left fun entry he => by rw [h entry he])

/-- What is listed entry by entry looks the same if it does for each entry. -/
theorem map_flatMap_entries {δ ε : Type} {f : α → β} {lines : String × β → List γ}
    {lines' : String × α → List δ} {write : γ → ε} {write' : δ → ε}
    (m : NameMap α)
    (h : ∀ name value, (name, value) ∈ m.entries →
      (lines (name, f value)).map write = (lines' (name, value)).map write') :
    ((m.map f).entries.flatMap lines).map write =
      (m.entries.flatMap lines').map write' := by
  change ((m.entries.map fun entry => (entry.1, f entry.2)).flatMap lines).map
    write = _
  rw [List.flatMap_map, List.map_flatMap, List.map_flatMap]
  exact List.flatMap_congr fun entry he => h entry.1 entry.2 he

end ModelText.NameMap
