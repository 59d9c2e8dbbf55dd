import ModelText.Proofs.Graph.Renaming

/-!
# One graph behind another

`base.append g` holds the objects of `base` and behind them those of `g`, whose
numbers are shifted by the size of `base`. What a change does to `g` it does in
the same way behind `base`, and the objects of `base` stay as they are: this is
why units do not disturb each other.

The graph refuses a change with the number of an object only if there is no such
object or if it is held already. Those refusals are left out here, since their
words are not the same behind another graph.
-/

namespace ModelText

/-- The number of an object behind so many others. -/
def ObjectId.shift (n : Nat) (id : ObjectId) : ObjectId := ⟨n + id.index⟩

@[simp] theorem ObjectId.index_shift (n : Nat) (id : ObjectId) :
    (id.shift n).index = n + id.index := rfl

namespace Graph

/-- The objects of a graph, and behind them those of another one. -/
def append (base g : Graph) : Graph where
  objects :=
    base.objects ++ g.objects.map (Object.rename (ObjectId.shift base.size))
  roots := base.roots ++ g.roots.map (ObjectId.shift base.size)

variable (base g : Graph)

@[simp] theorem size_append : (base.append g).size = base.size + g.size := by
  simp [append, size]

@[simp] theorem append_empty : base.append empty = base := by
  simp [append, empty]

theorem object?_append_of_lt {id : ObjectId} (h : id.index < base.size) :
    (base.append g).object? id = base.object? id := by
  unfold object? append
  rw [Array.getElem?_append_left h]

theorem object?_append_shift (id : ObjectId) :
    (base.append g).object? (id.shift base.size) =
      (g.object? id).map (Object.rename (ObjectId.shift base.size)) := by
  unfold object? append
  rw [ObjectId.index_shift, size, Array.getElem?_append_right (by omega)]
  simp

theorem instantiate_append (type : StructuredType) (isRoot : Bool) :
    (base.append g).instantiate type isRoot =
      ((g.instantiate type isRoot).1.shift base.size,
        base.append (g.instantiate type isRoot).2) := by
  have hid : (⟨(base.append g).size⟩ : ObjectId) =
      ObjectId.shift base.size ⟨g.size⟩ := by
    simp [ObjectId.shift]
  unfold instantiate
  rw [hid]
  cases isRoot <;> simp [append]

theorem update_append {f f' : Object → Object}
    (hf : ∀ o, f' (Object.rename (ObjectId.shift base.size) o) =
      Object.rename (ObjectId.shift base.size) (f o)) (id : ObjectId) :
    (base.append g).update (id.shift base.size) f' =
      base.append (g.update id f) := by
  have ho : (base.objects ++
      g.objects.map (Object.rename (ObjectId.shift base.size))).modify
        (base.size + id.index) f' =
      base.objects ++ (g.objects.modify id.index f).map
        (Object.rename (ObjectId.shift base.size)) := by
    apply Array.ext_getElem?
    intro i
    rw [Array.getElem?_modify]
    by_cases hi : i < base.objects.size
    · rw [Array.getElem?_append_left hi, Array.getElem?_append_left hi,
        if_neg (by simp only [size]; omega)]
    · rw [Array.getElem?_append_right (by omega),
        Array.getElem?_append_right (by omega), Array.getElem?_map,
        Array.getElem?_map, Array.getElem?_modify]
      by_cases hj : id.index = i - base.objects.size
      · rw [if_pos (by simp only [size]; omega), if_pos hj, Option.map_map,
          Option.map_map]
        congr 1
        funext o
        exact hf o
      · rw [if_neg (by simp only [size]; omega), if_neg hj]
  unfold update append
  rw [ObjectId.index_shift, ho]

variable {g} {id : ObjectId} {o : Object}

theorem setName_append (h : g.object? id = some o) (name : String) :
    (base.append g).setName (id.shift base.size) name =
      (g.setName id name).map base.append := by
  rw [setName_eq, setName_eq, object?_append_shift, h]
  exact congrArg Except.ok (update_append base g
    (f := fun o => { o with name := some name }) (fun _ => rfl) id)

theorem setValue_append (h : g.object? id = some o) (slot : Slot)
    (value : Value) :
    (base.append g).setValue slot (id.shift base.size)
        (value.rename (ObjectId.shift base.size)) =
      (g.setValue slot id value).map base.append := by
  rw [setValue_eq, setValue_eq, object?_append_shift, h]
  simp only [Option.map_some, Except.map]
  rw [update_append base g fun o => o.assign_rename _ slot value]

theorem addChild_append {child : ObjectId} {held : Object}
    (hp : g.object? id = some o) (hc : g.object? child = some held)
    (hh : held.place = none) (composition : Feature) :
    (base.append g).addChild composition (id.shift base.size)
        (child.shift base.size) =
      (g.addChild composition id child).map base.append := by
  have hn : (held.rename (ObjectId.shift base.size)).place = none := by
    simp [Object.rename, hh]
  rw [addChild_eq, addChild_eq, object?_append_shift, object?_append_shift, hp,
    hc]
  simp only [Option.map_some, hn, hh, Option.isSome_none, Bool.false_eq_true,
    if_false, Object.type_rename, Object.held_rename, ne_eq,
    List.map_eq_nil_iff]
  split
  · rfl
  · split
    · rfl
    · rw [update_append base g fun o => o.hold_rename _ composition.name child]
      exact congrArg Except.ok (update_append base _
        (f := fun o => { o with place := some ⟨id, composition.name⟩ })
        (fun _ => rfl) child)

end Graph

end ModelText
