import ModelText.Graph.Basic

/-!
# Places that stay

While a model is built, objects are created and changed, but none disappears,
and an object that is held stays where it is. `Graph.Keeps` compares two graphs
in this respect, leaving out objects that may have been given a place between
them.
-/

namespace ModelText

namespace Graph

/-- All objects are still there, and those not in the list are held where they
were held. -/
def Keeps (but : List ObjectId) (g h : Graph) : Prop :=
  ∀ id o, g.object? id = some o →
    ∃ o', h.object? id = some o' ∧ (id ∉ but → o'.place = o.place)

/-- An object is there and nobody holds it. -/
def Free (g : Graph) (id : ObjectId) : Prop :=
  ∃ o, g.object? id = some o ∧ o.place = none

variable {but : List ObjectId} {g h k : Graph} {id : ObjectId}

theorem object?_eq_some_of_lt (hi : id.index < g.size) :
    ∃ o, g.object? id = some o := by
  cases ho : g.object? id with
  | some o => exact ⟨o, rfl⟩
  | none =>
    rw [object?_eq_none_iff] at ho
    omega

theorem lt_size_of_object? {o : Object} (ho : g.object? id = some o) :
    id.index < g.size := by
  refine Nat.lt_of_not_le fun hn => ?_
  rw [object?_eq_none_iff.2 hn] at ho
  cases ho

theorem Keeps.refl (but : List ObjectId) (g : Graph) : Keeps but g g :=
  fun _ o ho => ⟨o, ho, fun _ => rfl⟩

theorem Keeps.trans (hg : Keeps but g h) (hh : Keeps but h k) :
    Keeps but g k := by
  intro id o ho
  obtain ⟨o', ho', hp⟩ := hg id o ho
  obtain ⟨o'', ho'', hp'⟩ := hh id o' ho'
  exact ⟨o'', ho'', fun hid => (hp' hid).trans (hp hid)⟩

theorem Keeps.mono {but' : List ObjectId} (hk : Keeps but g h)
    (hb : but ⊆ but') : Keeps but' g h := by
  intro id o ho
  obtain ⟨o', ho', hp⟩ := hk id o ho
  exact ⟨o', ho', fun hid => hp fun hm => hid (hb hm)⟩

theorem Keeps.size_le (hk : Keeps but g h) : g.size ≤ h.size := by
  refine Nat.le_of_not_lt fun hn => ?_
  have hi : (⟨h.size⟩ : ObjectId).index < g.size := hn
  obtain ⟨o, ho⟩ := object?_eq_some_of_lt hi
  obtain ⟨o', ho', -⟩ := hk _ o ho
  exact Nat.lt_irrefl _ (lt_size_of_object? ho')

theorem Keeps.free (hk : Keeps but g h) (hid : id ∉ but) (hf : g.Free id) :
    h.Free id := by
  obtain ⟨o, ho, hp⟩ := hf
  obtain ⟨o', ho', hp'⟩ := hk id o ho
  exact ⟨o', ho', (hp' hid).trans hp⟩

/-- Objects that came later do not count. -/
theorem Keeps.forget (hg : Keeps [] g h) (hh : Keeps but h k)
    (hb : ∀ id ∈ but, g.size ≤ id.index) : Keeps [] g k := by
  intro id o ho
  obtain ⟨o', ho', hp⟩ := hg id o ho
  obtain ⟨o'', ho'', hp'⟩ := hh id o' ho'
  refine ⟨o'', ho'', fun hid => (hp' fun hm => ?_).trans (hp hid)⟩
  have := hb id hm
  have := lt_size_of_object? ho
  omega

theorem keeps_update {f : Object → Object}
    (hf : id ∉ but → ∀ o, (f o).place = o.place) :
    Keeps but g (g.update id f) := by
  intro other o ho
  rw [object?_update]
  by_cases hid : other = id
  · subst hid
    rw [if_pos rfl, ho]
    exact ⟨f o, rfl, fun hn => hf hn o⟩
  · rw [if_neg hid]
    exact ⟨o, ho, fun _ => rfl⟩

theorem keeps_instantiate (g : Graph) (type : StructuredType)
    (isRoot : Bool) : Keeps [] g (g.instantiate type isRoot).2 := by
  intro id o ho
  have := lt_size_of_object? ho
  rw [object?_instantiate, if_neg (by omega)]
  exact ⟨o, ho, fun _ => rfl⟩

theorem free_instantiate (g : Graph) (type : StructuredType) (isRoot : Bool) :
    (g.instantiate type isRoot).2.Free (g.instantiate type isRoot).1 := by
  refine ⟨.new type, ?_, rfl⟩
  rw [object?_instantiate]
  exact if_pos rfl

end Graph

end ModelText
