import ModelText.Proofs.Graph.Closed

/-!
# The elements of a graph

Some objects stand for elements and the others for records. While a unit is
built, what an element holds changes only as long as its own declaration is
being built, and neither its type nor its name changes after that of its
creation. `Graph.Spares` compares two graphs in this respect, leaving out
objects that may have come to hold more between them.
-/

namespace ModelText.Graph

variable {but : List ObjectId} {g h k : Graph} {id : ObjectId}

/-- The objects that are elements, in the order of creation. -/
def elements (g : Graph) : List ObjectId :=
  g.ids.filter fun id => ((g.type? id).bind (·.object?)).isSome

theorem mem_elements :
    id ∈ g.elements ↔ ∃ type, g.type? id = some (.object type) := by
  unfold elements
  rw [List.mem_filter]
  constructor
  · rintro ⟨-, hi⟩
    obtain ⟨type, ht⟩ := Option.isSome_iff_exists.1 hi
    obtain ⟨found, hf, hx⟩ := Option.bind_eq_some_iff.1 ht
    cases found with
    | object found => exact ⟨found, hf⟩
    | record found => cases hx
  · rintro ⟨type, ht⟩
    have hi := lt_size_of_type? ht
    rw [ht]
    exact ⟨List.mem_map.2 ⟨id.index, List.mem_range.2 hi, rfl⟩, rfl⟩

theorem nodup_elements (g : Graph) : g.elements.Nodup := by
  have hi : g.ids.Nodup := by
    refine List.pairwise_map.2 (List.nodup_range.imp fun hn he => ?_)
    exact hn (congrArg ObjectId.index he)
  exact hi.filter _

theorem elements_update {f : Object → Object} (hf : ∀ o, (f o).type = o.type) :
    (g.update id f).elements = g.elements := by
  unfold elements ids
  simp only [size_update, type?_update hf]

theorem elements_addChild {composition : Feature} {parent child : ObjectId}
    (hm : g.addChild composition parent child = .ok h) :
    h.elements = g.elements := by
  rw [(addChild_eq_ok hm).2]
  refine (elements_update ?_).trans (elements_update ?_)
  · exact fun _ => rfl
  · exact fun _ => rfl

theorem elements_instantiate (g : Graph) (type : StructuredType)
    (isRoot : Bool) :
    (g.instantiate type isRoot).2.elements =
      g.elements ++ if type.object?.isSome then [⟨g.size⟩] else [] := by
  have hold : ∀ id ∈ g.ids, (g.instantiate type isRoot).2.type? id =
      g.type? id := by
    intro id hi
    obtain ⟨n, hn, rfl⟩ := List.mem_map.1 hi
    unfold type?
    rw [object?_instantiate, if_neg]
    exact Nat.ne_of_lt (List.mem_range.1 hn)
  have hnew : (g.instantiate type isRoot).2.type? ⟨g.size⟩ = some type :=
    type?_instantiate_self g type isRoot
  unfold elements
  have hids : (g.instantiate type isRoot).2.ids = g.ids ++ [⟨g.size⟩] := by
    simp [ids, List.range_succ]
  rw [hids, List.filter_append]
  congr 1
  · apply List.filter_congr
    intro id hi
    rw [hold id hi]
  · simp only [List.filter_cons, hnew, Option.bind_some, List.filter_nil]

/-- All objects are still there with their types and names, and those not in the
list hold what they held. -/
def Spares (but : List ObjectId) (g h : Graph) : Prop :=
  ∀ id o, g.object? id = some o → ∃ o', h.object? id = some o' ∧
    o'.type = o.type ∧ o'.name = o.name ∧
      (id ∉ but → o'.compositions = o.compositions)

theorem Spares.refl (but : List ObjectId) (g : Graph) : Spares but g g :=
  fun _ o ho => ⟨o, ho, rfl, rfl, fun _ => rfl⟩

theorem Spares.trans (hg : Spares but g h) (hh : Spares but h k) :
    Spares but g k := by
  intro id o ho
  obtain ⟨o', ho', ht, hn, hc⟩ := hg id o ho
  obtain ⟨o'', ho'', ht', hn', hc'⟩ := hh id o' ho'
  exact ⟨o'', ho'', ht'.trans ht, hn'.trans hn,
    fun hid => (hc' hid).trans (hc hid)⟩

theorem Spares.size_le (hs : Spares but g h) : g.size ≤ h.size := by
  refine Nat.le_of_not_lt fun hn => ?_
  have hi : (⟨h.size⟩ : ObjectId).index < g.size := hn
  obtain ⟨o, ho⟩ := object?_eq_some_of_lt hi
  obtain ⟨o', ho', -⟩ := hs _ o ho
  exact Nat.lt_irrefl _ (lt_size_of_object? ho')

theorem Spares.mono {but' : List ObjectId} (hs : Spares but g h)
    (hb : but ⊆ but') : Spares but' g h := by
  intro id o ho
  obtain ⟨o', ho', ht, hn, hc⟩ := hs id o ho
  exact ⟨o', ho', ht, hn, fun hid => hc fun hm => hid (hb hm)⟩

/-- Objects that came later do not count. -/
theorem Spares.forget (hg : Spares [] g h) (hh : Spares but h k)
    (hb : ∀ id ∈ but, g.size ≤ id.index) : Spares [] g k := by
  intro id o ho
  obtain ⟨o', ho', ht, hn, hc⟩ := hg id o ho
  obtain ⟨o'', ho'', ht', hn', hc'⟩ := hh id o' ho'
  refine ⟨o'', ho'', ht'.trans ht, hn'.trans hn, fun hid => ?_⟩
  rw [hc' fun hm => ?_, hc hid]
  have := hb id hm
  have := lt_size_of_object? ho
  omega

theorem spares_instantiate (g : Graph) (type : StructuredType)
    (isRoot : Bool) : Spares [] g (g.instantiate type isRoot).2 := by
  intro id o ho
  have := lt_size_of_object? ho
  rw [object?_instantiate, if_neg (by omega)]
  exact ⟨o, ho, rfl, rfl, fun _ => rfl⟩

theorem spares_update {f : Object → Object} (ht : ∀ o, (f o).type = o.type)
    (hn : ∀ o, (f o).name = o.name)
    (hc : id ∉ but → ∀ o, (f o).compositions = o.compositions) :
    Spares but g (g.update id f) := by
  intro other o ho
  rw [object?_update]
  by_cases hid : other = id
  · subst hid
    rw [if_pos rfl, ho]
    exact ⟨f o, rfl, ht o, hn o, fun hm => hc hm o⟩
  · rw [if_neg hid]
    exact ⟨o, ho, rfl, rfl, fun _ => rfl⟩

theorem spares_addChild {composition : Feature} {parent child : ObjectId}
    (hm : g.addChild composition parent child = .ok h) :
    Spares [parent] g h := by
  have hp : Spares [parent] g
      (g.update parent (·.hold composition.name child)) := by
    apply spares_update
    · exact fun _ => rfl
    · exact fun _ => rfl
    · exact fun hn => absurd (List.mem_singleton.2 rfl) hn
  rw [(addChild_eq_ok hm).2]
  apply hp.trans
  apply spares_update
  · exact fun _ => rfl
  · exact fun _ => rfl
  · exact fun _ _ => rfl

theorem Spares.type? (hs : Spares but g h) {type : StructuredType}
    (ht : g.type? id = some type) : h.type? id = some type := by
  obtain ⟨o, ho, rfl⟩ := Option.map_eq_some_iff.1 ht
  obtain ⟨o', ho', ht, -⟩ := hs id o ho
  rw [type?_of_object? ho', ht]

theorem Spares.name? (hs : Spares but g h) {type : StructuredType}
    (ht : g.type? id = some type) : h.name? id = g.name? id := by
  obtain ⟨o, ho, -⟩ := Option.map_eq_some_iff.1 ht
  obtain ⟨o', ho', -, hn, -⟩ := hs id o ho
  simp [Graph.name?, ho, ho', hn]

theorem Spares.childrenOf (hs : Spares but g h) {type : StructuredType}
    (ht : g.type? id = some type) (hid : id ∉ but) (feature : String) :
    h.childrenOf id feature = g.childrenOf id feature := by
  obtain ⟨o, ho, -⟩ := Option.map_eq_some_iff.1 ht
  obtain ⟨o', ho', -, -, hc⟩ := hs id o ho
  simp [Graph.childrenOf, Object.held, ho, ho', hc hid]

/-- Elements that were added are none of the objects that were there. -/
theorem Spares.le_of_elements (hs : Spares but g h) {ids : List ObjectId}
    (he : h.elements = g.elements ++ ids) (hid : id ∈ ids) :
    g.size ≤ id.index := by
  refine Nat.le_of_not_lt fun hlt => ?_
  obtain ⟨o, ho⟩ := object?_eq_some_of_lt hlt
  have ht := type?_of_object? ho
  have hn := nodup_elements h
  have hm : id ∈ h.elements := by
    rw [he]
    exact List.mem_append_right _ hid
  obtain ⟨type, hx⟩ := mem_elements.1 hm
  rw [hs.type? ht] at hx
  rw [he] at hn
  refine (List.nodup_append.1 hn).2.2 id (mem_elements.2 ?_) id hid rfl
  exact ⟨type, ht.trans hx⟩

/-! ### Places of what is held -/

/-- The place where an object is held. -/
def place? (g : Graph) (id : ObjectId) : Option Place :=
  (g.object? id).bind (·.place)

/-- What an object holds by a feature has its place there. -/
def Placed (g : Graph) : Prop :=
  ∀ id feature, ∀ child ∈ g.childrenOf id feature,
    g.place? child = some ⟨id, feature⟩

theorem placed_empty : empty.Placed := fun _ _ _ h => by cases h

theorem childrenOf_update {f : Object → Object}
    (hf : ∀ o, (f o).compositions = o.compositions) (other : ObjectId)
    (feature : String) :
    (g.update id f).childrenOf other feature = g.childrenOf other feature := by
  apply read_update (F := fun o => (o.map (Object.held · feature)).getD [])
  intro o
  simp only [Option.map_some, Object.held, hf]

theorem childrenOf_instantiate (g : Graph) (type : StructuredType)
    (isRoot : Bool) (other : ObjectId) (feature : String) :
    (g.instantiate type isRoot).2.childrenOf other feature =
      g.childrenOf other feature := by
  unfold childrenOf
  rw [object?_instantiate]
  split
  · next hn =>
    rw [object?_eq_none_iff.2 (Nat.le_of_eq hn.symm)]
    rfl
  · rfl

theorem childrenOf_addChild {composition : Feature} {parent child : ObjectId}
    (hm : g.addChild composition parent child = .ok h) (other : ObjectId)
    (feature : String) :
    h.childrenOf other feature = g.childrenOf other feature ++
      if other = parent ∧ feature = composition.name then [child] else [] := by
  obtain ⟨⟨holder, held, hh⟩, rfl⟩ := addChild_eq_ok hm
  refine (childrenOf_update ?_ other feature).trans ?_
  · exact fun _ => rfl
  unfold childrenOf
  rw [object?_update]
  by_cases ho : other = parent
  · subst ho
    simp only [if_true, hh.parent, Option.map_some, Option.getD_some,
      Object.held_hold, true_and]
    split
    · next hf => rw [hf]
    · exact (List.append_nil _).symm
  · simp [ho]

theorem place?_update {f : Object → Object}
    (hf : ∀ o, (f o).place = o.place) (other : ObjectId) :
    (g.update id f).place? other = g.place? other :=
  read_update (F := fun o => o.bind Object.place) hf other

theorem Placed.update (hp : g.Placed) {f : Object → Object}
    (hc : ∀ o, (f o).compositions = o.compositions)
    (hf : ∀ o, (f o).place = o.place) : (g.update id f).Placed := by
  intro other feature child hm
  rw [childrenOf_update hc] at hm
  rw [place?_update hf]
  exact hp other feature child hm

theorem Placed.instantiate (hp : g.Placed) (type : StructuredType)
    (isRoot : Bool) : (g.instantiate type isRoot).2.Placed := by
  intro other feature child hm
  rw [childrenOf_instantiate] at hm
  have hx := hp other feature child hm
  obtain ⟨o, ho, hplace⟩ := Option.bind_eq_some_iff.1 hx
  have := lt_size_of_object? ho
  unfold place?
  rw [object?_instantiate, if_neg (by omega), ho]
  exact hplace

theorem place?_addChild {composition : Feature} {parent child : ObjectId}
    (hm : g.addChild composition parent child = .ok h) (other : ObjectId) :
    g.place? child = none ∧ h.place? other =
      if other = child then some ⟨parent, composition.name⟩
      else g.place? other := by
  obtain ⟨⟨holder, held, hh⟩, rfl⟩ := addChild_eq_ok hm
  constructor
  · unfold place?
    rw [hh.child]
    exact hh.free
  · have hp : (g.update parent (·.hold composition.name child)).place? other =
        g.place? other := by
      apply place?_update
      exact fun _ => rfl
    rw [← hp]
    unfold place?
    rw [object?_update]
    by_cases ho : other = child
    · have hlt : child.index <
          (g.update parent (·.hold composition.name child)).size := by
        rw [size_update]
        exact lt_size_of_object? hh.child
      obtain ⟨o, hc⟩ := object?_eq_some_of_lt hlt
      rw [if_pos ho, if_pos ho, hc]
      rfl
    · rw [if_neg ho, if_neg ho]

theorem Placed.addChild (hp : g.Placed) {composition : Feature}
    {parent child : ObjectId}
    (hm : g.addChild composition parent child = .ok h) : h.Placed := by
  intro other feature found hf
  rw [childrenOf_addChild hm] at hf
  obtain ⟨hfree, hplace⟩ := place?_addChild hm found
  rw [hplace]
  rcases List.mem_append.1 hf with hold | hnew
  · rw [if_neg]
    · exact hp other feature found hold
    · rintro rfl
      rw [hp other feature found hold] at hfree
      cases hfree
  · split at hnew
    · next ho => rw [if_pos (List.mem_singleton.1 hnew), ho.1, ho.2]
    · cases hnew

end ModelText.Graph
