import ModelText.Graph.Basic

/-!
# What a change that succeeds does

When the graph allows a change, it is an update of one object, or of two for an
attachment, and some conditions hold. No change touches the type of an object.
-/

namespace ModelText.Graph

/-! ### Conditions -/

theorem setName_eq_ok {g h : Graph} {id : ObjectId} {name : String}
    (hm : g.setName id name = .ok h) :
    h = g.update id fun o => { o with name := some name } := by
  rw [setName_eq] at hm
  split at hm
  · cases hm
  · exact (Except.ok.inj hm).symm

theorem setValue_eq_ok {g h : Graph} {slot : Slot} {id : ObjectId}
    {value : Value} (hm : g.setValue slot id value = .ok h) :
    h = g.update id (·.assign slot value) := by
  rw [setValue_eq] at hm
  split at hm
  · cases hm
  · exact (Except.ok.inj hm).symm

/-- What it takes to hold an object: both are there, nobody holds it yet, it is
of the right kind, and there is room. -/
structure CanHold (g : Graph) (composition : Feature) (parent child : ObjectId)
    (holder held : Object) : Prop where
  parent : g.object? parent = some holder
  child : g.object? child = some held
  free : held.place = none
  conforms : held.type.conformsTo composition.target = true
  room : composition.many = false → holder.held composition.name = []

theorem addChild_eq_ok {g h : Graph} {composition : Feature}
    {parent child : ObjectId} (hm : g.addChild composition parent child = .ok h) :
    (∃ holder held, g.CanHold composition parent child holder held) ∧
      h = (g.update parent (·.hold composition.name child)).update child
        fun o => { o with place := some ⟨parent, composition.name⟩ } := by
  rw [addChild_eq] at hm
  cases hp : g.object? parent with
  | none =>
    rw [hp] at hm
    cases hm
  | some holder =>
    cases hc : g.object? child with
    | none =>
      rw [hp, hc] at hm
      cases hm
    | some held =>
      rw [hp, hc] at hm
      dsimp only at hm
      split at hm
      · cases hm
      · rename_i hfree
        split at hm
        · cases hm
        · rename_i hconf
          split at hm
          · cases hm
          · rename_i hroom
            refine ⟨⟨holder, held, hp, hc, ?_, ?_, ?_⟩,
              (Except.ok.inj hm).symm⟩
            · simpa using hfree
            · simpa using hconf
            · intro hmany
              exact Classical.byContradiction fun hn => hroom ⟨hmany, hn⟩

/-- What it takes to refer to an object: both are there, it is of the right
kind, and there is room. -/
structure CanRefer (g : Graph) (reference : Feature) (source target : ObjectId)
    (object found : Object) : Prop where
  source : g.object? source = some object
  target : g.object? target = some found
  conforms : found.type.conformsTo reference.target = true
  room : reference.many = false → object.targets reference.name = []

theorem link_eq_ok {g h : Graph} {reference : Feature}
    {source target : ObjectId} (hm : g.link reference source target = .ok h) :
    (∃ object found, g.CanRefer reference source target object found) ∧
      h = g.update source (·.refer reference.name target) := by
  rw [link_eq] at hm
  cases ht : g.object? target with
  | none =>
    rw [ht] at hm
    cases hm
  | some found =>
    rw [ht] at hm
    dsimp only at hm
    split at hm
    · cases hm
    · rename_i hconf
      cases hs : g.object? source with
      | none =>
        rw [hs] at hm
        cases hm
      | some object =>
        rw [hs] at hm
        dsimp only at hm
        split at hm
        · cases hm
        · rename_i hroom
          refine ⟨⟨object, found, hs, ht, ?_, ?_⟩, (Except.ok.inj hm).symm⟩
          · simpa using hconf
          · intro hmany
            exact Classical.byContradiction fun hn => hroom ⟨hmany, hn⟩

/-- A link adds one target to its feature. -/
theorem targets_link {g h : Graph} {reference : Feature}
    {source target : ObjectId} (hm : g.link reference source target = .ok h)
    (id : ObjectId) (feature : String) :
    h.targets id feature = g.targets id feature ++
      if id = source ∧ feature = reference.name then [target] else [] := by
  obtain ⟨⟨object, found, hx⟩, rfl⟩ := link_eq_ok hm
  unfold targets
  rw [object?_update]
  by_cases hi : id = source
  · subst hi
    simp only [if_true, hx.source, Option.map_some, Option.getD_some,
      Object.targets_refer, true_and]
    split
    · next hf => rw [hf]
    · exact (List.append_nil _).symm
  · simp [hi]

/-! ### Objects behind a change -/

theorem object?_update_eq_some {g : Graph} {id other : ObjectId}
    {f : Object → Object} {o : Object}
    (h : (g.update id f).object? other = some o) :
    g.object? other = some o ∨ ∃ o', g.object? id = some o' ∧ o = f o' := by
  rw [object?_update] at h
  split at h
  · obtain ⟨o', ho, rfl⟩ := Option.map_eq_some_iff.1 h
    exact .inr ⟨o', ho, rfl⟩
  · exact .inl h

/-- What a change leaves alone in every object reads the same behind it. -/
theorem read_update {β : Type} {F : Option Object → β} {g : Graph}
    {id : ObjectId} {f : Object → Object} (hf : ∀ o, F (some (f o)) = F (some o))
    (other : ObjectId) :
    F ((g.update id f).object? other) = F (g.object? other) := by
  rw [object?_update]
  split
  · rename_i hid
    rw [hid]
    cases g.object? id with
    | none => rfl
    | some o => exact hf o
  · rfl

theorem type?_of_object? {g : Graph} {id : ObjectId} {o : Object}
    (h : g.object? id = some o) : g.type? id = some o.type :=
  congrArg (Option.map Object.type) h

theorem type_of_type? {g : Graph} {id : ObjectId} {o : Object}
    {type : StructuredType} (ht : g.type? id = some type)
    (ho : g.object? id = some o) : o.type = type :=
  Option.some.inj ((type?_of_object? ho).symm.trans ht)

/-! ### Types stay -/

theorem type?_update {g : Graph} {id other : ObjectId} {f : Object → Object}
    (hf : ∀ o, (f o).type = o.type) :
    (g.update id f).type? other = g.type? other :=
  read_update (F := Option.map Object.type) (fun o => congrArg some (hf o)) other

theorem type?_setValue {g h : Graph} {slot : Slot} {id : ObjectId}
    {value : Value} (hm : g.setValue slot id value = .ok h) (other : ObjectId) :
    h.type? other = g.type? other := by
  rw [setValue_eq_ok hm]
  apply type?_update
  exact fun _ => rfl

theorem type?_addChild {g h : Graph} {composition : Feature}
    {parent child : ObjectId} (hm : g.addChild composition parent child = .ok h)
    (other : ObjectId) : h.type? other = g.type? other := by
  rw [(addChild_eq_ok hm).2]
  refine (type?_update ?_).trans (type?_update ?_)
  · exact fun _ => rfl
  · exact fun _ => rfl

theorem type?_instantiate_of_some {g : Graph} {type found : StructuredType}
    {isRoot : Bool} {id : ObjectId} (h : g.type? id = some found) :
    (g.instantiate type isRoot).2.type? id = some found := by
  unfold type? at h ⊢
  rw [object?_instantiate, if_neg]
  · exact h
  · intro hi
    rw [object?_eq_none_iff.2 (Nat.le_of_eq hi.symm)] at h
    cases h

theorem type?_instantiate_self (g : Graph) (type : StructuredType)
    (isRoot : Bool) :
    (g.instantiate type isRoot).2.type? (g.instantiate type isRoot).1 =
      some type := by
  unfold type?
  rw [object?_instantiate]
  exact congrArg (Option.map _) (if_pos rfl)

end ModelText.Graph
