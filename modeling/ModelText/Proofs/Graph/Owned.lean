import ModelText.Proofs.Graph.Elements
import ModelText.Proofs.Graph.Walks

/-!
# What changes of a graph do to ownership

A new object owns nothing. A value of a slot gives the object at most the record
that it is, and takes away what it replaces; an attachment gives it the object
that is attached. Names and references are no matter of ownership. All this is
told by counting how often an object is among those that another one owns.
-/

namespace ModelText

/-- How often something is among the entries, when one of them changes. -/
theorem NameMap.count_flatMap_update {α : Type}
    (φ : String × α → List ObjectId) (x : ObjectId) (name : String)
    (f : Option α → α) (m : NameMap α) :
    ((m.update name f).entries.flatMap φ).count x +
        (((m.get? name).map fun old => φ (name, old)).getD []).count x =
      (φ (name, f (m.get? name))).count x + (m.entries.flatMap φ).count x := by
  change ((updateEntries name f m.entries).flatMap φ).count x +
    (((m.entries.lookup name).map fun old => φ (name, old)).getD []).count x =
      (φ (name, f (m.entries.lookup name))).count x + _
  induction m.entries with
  | nil => simp [updateEntries]
  | cons entry rest ih =>
    obtain ⟨other, value⟩ := entry
    rw [updateEntries, lookup_cons]
    by_cases ho : other = name
    · subst ho
      rw [if_pos rfl, if_pos rfl]
      simp only [List.flatMap_cons, List.count_append, Option.map_some,
        Option.getD_some]
      omega
    · rw [if_neg ho, if_neg (Ne.symm ho)]
      simp only [List.flatMap_cons, List.count_append]
      omega

namespace Object

theorem count_records_assign (o : Object) (slot : Slot) (value : Value)
    (x : ObjectId) :
    (o.assign slot value).records.count x ≤
      value.record?.toList.count x + o.records.count x := by
  have hv : [value].filterMap Value.record? = value.record?.toList := by
    cases value <;> rfl
  have hc := NameMap.count_flatMap_update
    (fun entry => entry.2.filterMap Value.record?) x slot.name
    (fun values => if slot.many then values.getD [] ++ [value] else [value])
    o.slots
  change (o.assign slot value).records.count x + _ = _ + o.records.count x at hc
  rw [← hv]
  generalize o.slots.get? slot.name = old at hc
  generalize slot.many = many at hc
  cases old with
  | none => cases many <;> (simp at hc ⊢; omega)
  | some values =>
    cases many with
    | false =>
      simp only [Option.map_some, Option.getD_some, Bool.false_eq_true,
        if_false] at hc
      omega
    | true =>
      simp only [Option.map_some, Option.getD_some, if_true,
        List.filterMap_append, List.count_append] at hc
      omega

theorem count_contents_hold (o : Object) (composition : String)
    (child x : ObjectId) :
    (o.hold composition child).contents.count x =
      [child].count x + o.contents.count x := by
  have hc := NameMap.count_flatMap_update Prod.snd x composition
    (fun held => held.getD [] ++ [child]) o.compositions
  change (o.hold composition child).contents.count x + _ =
    _ + o.contents.count x at hc
  cases hg : o.compositions.get? composition with
  | none =>
    rw [hg] at hc
    simpa using hc
  | some held =>
    rw [hg] at hc
    simp only [Option.map_some, Option.getD_some, List.count_append] at hc
    omega

end Object

namespace Graph

variable {g h : Graph}

/-- The records in the slots of an object. -/
def records (g : Graph) (id : ObjectId) : List ObjectId :=
  ((g.object? id).map Object.records).getD []

/-- The objects that an object holds, feature by feature. -/
def contents (g : Graph) (id : ObjectId) : List ObjectId :=
  ((g.object? id).map Object.contents).getD []

theorem owned_eq (g : Graph) (id : ObjectId) :
    g.owned id = g.records id ++ g.contents id := by
  unfold owned records contents
  cases g.object? id <;> rfl

/-! ### Changes that leave ownership alone -/

section

variable {id : ObjectId} {f : Object → Object}

theorem records_update (hs : ∀ o, (f o).slots = o.slots) (other : ObjectId) :
    (g.update id f).records other = g.records other := by
  apply read_update (F := fun o => (o.map Object.records).getD [])
  intro o
  simp only [Option.map_some, Object.records, hs]

theorem contents_update (hc : ∀ o, (f o).compositions = o.compositions)
    (other : ObjectId) : (g.update id f).contents other = g.contents other := by
  apply read_update (F := fun o => (o.map Object.contents).getD [])
  intro o
  simp only [Option.map_some, Object.contents, hc]

theorem children_update (hc : ∀ o, (f o).children = o.children)
    (other : ObjectId) : (g.update id f).children other = g.children other := by
  apply read_update (F := fun o => (o.map Object.children).getD [])
  intro o
  simp only [Option.map_some, hc]

/-- What shows nothing of a new object shows the same behind its creation. -/
theorem read_instantiate {β : Type} {F : Option Object → β}
    {type : StructuredType} (hF : F (some (.new type)) = F none)
    (isRoot : Bool) (other : ObjectId) :
    F ((g.instantiate type isRoot).2.object? other) = F (g.object? other) := by
  rw [object?_instantiate]
  split
  · next hn =>
    rw [object?_eq_none_iff.2 (Nat.le_of_eq hn.symm)]
    exact hF
  · rfl

end

/-! ### Values and attachments -/

theorem count_records_setValue {slot : Slot} {id : ObjectId} {value : Value}
    (hm : g.setValue slot id value = .ok h) (other x : ObjectId) :
    (h.records other).count x ≤
      (if other = id then value.record?.toList else []).count x +
        (g.records other).count x := by
  rw [setValue_eq_ok hm]
  unfold records
  rw [object?_update]
  split
  · rename_i ho
    subst ho
    cases g.object? other with
    | none => exact Nat.zero_le _
    | some o => exact o.count_records_assign slot value x
  · exact Nat.le_add_left _ _

theorem contents_setValue {slot : Slot} {id : ObjectId} {value : Value}
    (hm : g.setValue slot id value = .ok h) (other : ObjectId) :
    h.contents other = g.contents other := by
  rw [setValue_eq_ok hm]
  apply contents_update
  exact fun _ => rfl

theorem records_addChild {composition : Feature} {parent child : ObjectId}
    (hm : g.addChild composition parent child = .ok h) (other : ObjectId) :
    h.records other = g.records other := by
  rw [(addChild_eq_ok hm).2]
  refine (records_update ?_ other).trans (records_update ?_ other)
  · exact fun _ => rfl
  · exact fun _ => rfl

theorem count_contents_addChild {composition : Feature}
    {parent child : ObjectId} (hm : g.addChild composition parent child = .ok h)
    (other x : ObjectId) :
    (h.contents other).count x =
      (if other = parent then [child] else []).count x +
        (g.contents other).count x := by
  obtain ⟨⟨holder, held, hh⟩, rfl⟩ := addChild_eq_ok hm
  refine (congrArg (List.count x) (contents_update ?_ other)).trans ?_
  · exact fun _ => rfl
  unfold contents
  rw [object?_update]
  by_cases ho : other = parent
  · subst ho
    rw [if_pos rfl, if_pos rfl, hh.parent]
    exact holder.count_contents_hold composition.name child x
  · rw [if_neg ho, if_neg ho]
    exact (Nat.zero_add _).symm

theorem children_addChild {composition : Feature} {parent child : ObjectId}
    (hm : g.addChild composition parent child = .ok h) (other : ObjectId) :
    h.children other =
      g.children other ++ if other = parent then [child] else [] := by
  obtain ⟨⟨holder, held, hh⟩, rfl⟩ := addChild_eq_ok hm
  refine (children_update ?_ other).trans ?_
  · exact fun _ => rfl
  unfold children
  rw [object?_update]
  by_cases ho : other = parent
  · subst ho
    rw [if_pos rfl, if_pos rfl, hh.parent]
    rfl
  · rw [if_neg ho, if_neg ho]
    exact (List.append_nil _).symm

/-! ### What is owned -/

theorem owned_update {id : ObjectId} {f : Object → Object}
    (hs : ∀ o, (f o).slots = o.slots)
    (hc : ∀ o, (f o).compositions = o.compositions) (other : ObjectId) :
    (g.update id f).owned other = g.owned other := by
  rw [owned_eq, owned_eq, records_update hs, contents_update hc]

theorem owned_instantiate (g : Graph) (type : StructuredType) (isRoot : Bool)
    (other : ObjectId) :
    (g.instantiate type isRoot).2.owned other = g.owned other :=
  read_instantiate (F := fun o => (o.map Object.owned).getD []) rfl isRoot other

theorem count_owned_setValue {slot : Slot} {id : ObjectId} {value : Value}
    (hm : g.setValue slot id value = .ok h) (other x : ObjectId) :
    (h.owned other).count x ≤
      (if other = id then value.record?.toList else []).count x +
        (g.owned other).count x := by
  have := count_records_setValue hm other x
  rw [owned_eq, owned_eq, contents_setValue hm, List.count_append,
    List.count_append]
  omega

theorem count_owned_addChild {composition : Feature} {parent child : ObjectId}
    (hm : g.addChild composition parent child = .ok h) (other x : ObjectId) :
    (h.owned other).count x ≤
      (if other = parent then [child] else []).count x +
        (g.owned other).count x := by
  have := count_contents_addChild hm other x
  rw [owned_eq, owned_eq, records_addChild hm, List.count_append,
    List.count_append]
  omega

/-- What an object got was there or was added to it. -/
theorem mem_of_count_le {other owner x : ObjectId}
    {list added old : List ObjectId}
    (hc : list.count x ≤
      (if other = owner then added else []).count x + old.count x)
    (hx : x ∈ list) : (other = owner ∧ x ∈ added) ∨ x ∈ old := by
  have := List.count_pos_iff.2 hx
  by_cases ha : x ∈ old
  · exact .inr ha
  · rw [List.count_eq_zero_of_not_mem ha] at hc
    have hm : x ∈ if other = owner then added else [] :=
      List.count_pos_iff.1 (by omega)
    split at hm
    · exact .inl ⟨‹_›, hm⟩
    · cases hm

theorem mem_contents_addChild {composition : Feature} {parent child : ObjectId}
    (hm : g.addChild composition parent child = .ok h) {other x : ObjectId} :
    x ∈ h.contents other ↔
      (other = parent ∧ x = child) ∨ x ∈ g.contents other := by
  have hc := count_contents_addChild hm other x
  constructor
  · intro hx
    exact (mem_of_count_le (Nat.le_of_eq hc) hx).imp_left
      (And.imp_right List.mem_singleton.1)
  · rintro (⟨rfl, rfl⟩ | hx)
    · rw [if_pos rfl, List.count_singleton_self] at hc
      exact List.count_pos_iff.1 (by omega)
    · have := List.count_pos_iff.2 hx
      exact List.count_pos_iff.1 (by omega)

theorem owns_addChild {composition : Feature} {parent child : ObjectId}
    (hm : g.addChild composition parent child = .ok h) {other x : ObjectId}
    (hx : h.Owns other x) : (other = parent ∧ x = child) ∨ g.Owns other x :=
  (mem_of_count_le (count_owned_addChild hm other x) hx).imp_left
    (And.imp_right List.mem_singleton.1)

theorem mem_record? {value : Value} {x : ObjectId} :
    x ∈ value.record?.toList ↔ value = .record x := by
  cases value with
  | record y =>
    rw [Value.record.injEq]
    exact List.mem_singleton.trans eq_comm
  | _ => exact ⟨nofun, nofun⟩

theorem owns_setValue {slot : Slot} {id : ObjectId} {value : Value}
    (hm : g.setValue slot id value = .ok h) {other x : ObjectId}
    (hx : h.Owns other x) : (other = id ∧ value = .record x) ∨ g.Owns other x :=
  (mem_of_count_le (count_owned_setValue hm other x) hx).imp_left
    (And.imp_right mem_record?.1)

end Graph

end ModelText
