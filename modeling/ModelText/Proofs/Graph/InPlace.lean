import ModelText.Proofs.Graph.Operations

/-!
# Changes in place

A change of a graph gives a new graph or the rule that it would break. Here the
changes are made in place, step by step. A step may come in front of a question:
a feature has its entry in the object before it is asked whether there is room
in it. And an attachment is written down in three places, one after the other. A
rule that is broken on the way ends the change, and the graph stays as it is by
then.

Made in place or not, a change comes to the same, and so one that fails leaves
the graph as it was. Behind the first step only one question can fail, the one
for room; and where there is no room, the feature has had its entry before.
-/

namespace ModelText

namespace NameMap

/-- An entry that stays as it is changes nothing. -/
theorem update_of_get? {α : Type} {m : NameMap α} {name : String} {value : α}
    {f : Option α → α} (h : m.get? name = some value)
    (hf : f (some value) = value) : m.update name f = m := by
  apply ext
  obtain ⟨entries, hd⟩ := m
  change entries.lookup name = some value at h
  change updateEntries name f entries = entries
  clear hd
  induction entries with
  | nil => cases h
  | cons entry rest ih =>
    obtain ⟨other, found⟩ := entry
    rw [lookup_cons] at h
    rw [updateEntries]
    split at h
    · next ho =>
      cases h
      rw [if_pos ho.symm, hf]
    · next ho => rw [if_neg (Ne.symm ho), ih h]

end NameMap

namespace Object

/-- Makes an entry for a slot, without values, if it has none. -/
def openSlot (o : Object) (slot : String) : Object :=
  { o with slots := o.slots.update slot (·.getD []) }

/-- Makes an entry for the targets of a feature, if it has none. -/
def openReference (o : Object) (reference : String) : Object :=
  { o with references := o.references.update reference (·.getD []) }

/-- Makes an entry for what a feature holds, if it has none. -/
def openComposition (o : Object) (composition : String) : Object :=
  { o with compositions := o.compositions.update composition (·.getD []) }

/-- Notes one more object with a feature, but not among all that is held. -/
def holdBy (o : Object) (composition : String) (child : ObjectId) : Object :=
  { o with compositions := o.compositions.update composition fun held =>
      held.getD [] ++ [child] }

/-- Notes one more object among all that is held, but with no feature. -/
def attach (o : Object) (child : ObjectId) : Object :=
  { o with children := o.children ++ [child] }

theorem assign_openSlot (o : Object) (slot : Slot) (value : Value) :
    (o.openSlot slot.name).assign slot value = o.assign slot value := by
  unfold assign openSlot
  rw [NameMap.update_update]
  rfl

theorem refer_openReference (o : Object) (reference : String)
    (target : ObjectId) :
    (o.openReference reference).refer reference target =
      o.refer reference target := by
  unfold refer openReference
  rw [NameMap.update_update]
  rfl

theorem hold_openComposition (o : Object) (composition : String)
    (child : ObjectId) :
    ((o.openComposition composition).holdBy composition child).attach child =
      o.hold composition child := by
  unfold holdBy openComposition attach hold
  rw [NameMap.update_update]
  rfl

/-- A feature with targets has its entry. -/
theorem openReference_of_ne_nil {o : Object} {reference : String}
    (h : o.targets reference ≠ []) : o.openReference reference = o := by
  cases hl : o.references.get? reference with
  | none => exact absurd (congrArg (·.getD []) hl) h
  | some targets =>
    unfold openReference
    rw [NameMap.update_of_get? hl rfl]

/-- A feature that holds something has its entry. -/
theorem openComposition_of_ne_nil {o : Object} {composition : String}
    (h : o.held composition ≠ []) : o.openComposition composition = o := by
  cases hl : o.compositions.get? composition with
  | none => exact absurd (congrArg (·.getD []) hl) h
  | some held =>
    unfold openComposition
    rw [NameMap.update_of_get? hl rfl]

theorem targets_openReference (o : Object) (reference : String) :
    (o.openReference reference).targets reference = o.targets reference := by
  unfold targets openReference
  rw [NameMap.get?_update, if_pos rfl, Option.getD_some]

theorem held_openComposition (o : Object) (composition : String) :
    (o.openComposition composition).held composition = o.held composition := by
  unfold held openComposition
  rw [NameMap.get?_update, if_pos rfl, Option.getD_some]

end Object

namespace Graph

variable {g h : Graph} {id : ObjectId} {o : Object}

/-- Two changes of one object are one. -/
theorem update_update (g : Graph) (id : ObjectId) (f f' : Object → Object) :
    (g.update id f).update id f' = g.update id (f' ∘ f) := by
  unfold update
  congr 1
  apply Array.ext_getElem?
  intro i
  simp only [Array.getElem?_modify]
  split
  · rw [Option.map_map]
  · rfl

/-- What an object is changed to matters only for this object. -/
theorem update_congr {f f' : Object → Object} (ho : g.object? id = some o)
    (hf : f o = f' o) : g.update id f = g.update id f' := by
  unfold update
  congr 1
  apply Array.ext_getElem?
  intro i
  simp only [Array.getElem?_modify]
  split
  · next hi =>
    have ho : g.objects[i]? = some o := hi ▸ ho
    rw [ho, Option.map_some, Option.map_some, hf]
  · rfl

/-- An object that stays as it is changes nothing. -/
theorem update_of_eq {f : Object → Object} (ho : g.object? id = some o)
    (hf : f o = o) : g.update id f = g := by
  have hid : g.update id (fun x => x) = g := by
    unfold update
    have hm : g.objects.modify id.index (fun x => x) = g.objects := by
      apply Array.ext_getElem?
      intro i
      simp [Array.getElem?_modify]
    rw [hm]
  have hsame : g.update id f = g.update id fun x => x := update_congr ho hf
  rw [hsame, hid]

theorem object?_update_self (h : g.object? id = some o)
    (f : Object → Object) : (g.update id f).object? id = some (f o) := by
  rw [object?_update, if_pos rfl, h, Option.map_some]

/-! ### Steps -/

/-- A change of a graph in place, which a broken rule can end. -/
abbrev Edit (α : Type) := ExceptT Error (StateM Graph) α

namespace Edit

variable {α β : Type}

/-- Makes a change of a graph: what comes of it, and the graph behind it. -/
def exec (edit : Edit α) (g : Graph) : Except Error α × Graph :=
  (ExceptT.run edit).run g

/-- The object with a given number, which has to be there. -/
def object (id : ObjectId) : Edit Object := do
  match (← get).object? id with
  | some o => pure o
  | none => throw (.unknownObject id)

/-- Changes the object with a given number, which has to be there. -/
def change (id : ObjectId) (f : Object → Object) : Edit PUnit := do
  let _ ← object id
  modify (·.update id f)

/-- Ends the change if it breaks a rule. -/
def refuse (broken : Bool) (rule : Error) : Edit PUnit :=
  if broken then throw rule else pure ⟨⟩

theorem exec_bind (edit : Edit α) (next : α → Edit β) (g : Graph) :
    (edit >>= next).exec g = match edit.exec g with
      | (.ok a, h) => (next a).exec h
      | (.error e, h) => (.error e, h) := by
  change (ExceptT.bindCont next (edit.exec g).1 : StateM Graph _)
    (edit.exec g).2 = _
  rcases edit.exec g with ⟨_ | _, h⟩ <;> rfl

theorem exec_bind_of_ok {edit : Edit α} {a : α} (he : edit.exec g = (.ok a, h))
    (next : α → Edit β) : (edit >>= next).exec g = (next a).exec h := by
  rw [exec_bind, he]

theorem exec_bind_of_error {edit : Edit α} {e : Error}
    (he : edit.exec g = (.error e, h)) (next : α → Edit β) :
    (edit >>= next).exec g = (.error e, h) := by
  rw [exec_bind, he]

theorem exec_object (id : ObjectId) (g : Graph) :
    (object id).exec g = (g.object id, g) := by
  change (match g.object? id with
    | some o => pure o
    | none => throw (.unknownObject id) : Edit Object).exec g = _
  unfold Graph.object
  cases g.object? id <;> rfl

theorem exec_object_of_some (ho : g.object? id = some o) :
    (object id).exec g = (.ok o, g) := by
  rw [exec_object, object_of_some ho]

theorem exec_object_of_none (ho : g.object? id = none) :
    (object id).exec g = (.error (.unknownObject id), g) := by
  rw [exec_object, object_of_none ho]

theorem exec_change_of_some (ho : g.object? id = some o)
    (f : Object → Object) : (change id f).exec g = (.ok ⟨⟩, g.update id f) := by
  unfold change
  rw [exec_bind_of_ok (exec_object_of_some ho)]
  rfl

theorem exec_change_of_none (ho : g.object? id = none)
    (f : Object → Object) :
    (change id f).exec g = (.error (.unknownObject id), g) := by
  unfold change
  rw [exec_bind_of_error (exec_object_of_none ho)]

theorem exec_refuse (broken : Bool) (rule : Error) (g : Graph) :
    (refuse broken rule).exec g =
      (if broken then .error rule else .ok ⟨⟩, g) := by
  unfold refuse
  cases broken <;> rfl

/-! ### Changes -/

/-- Creates an object. -/
def instantiate (type : StructuredType) (isRoot : Bool) : Edit ObjectId :=
  modifyGet (·.instantiate type isRoot)

/-- Names an object. -/
def setName (id : ObjectId) (name : String) : Edit PUnit :=
  change id fun o => { o with name := some name }

/-- Gives a slot of an object a value. -/
def setValue (slot : Slot) (id : ObjectId) (value : Value) : Edit PUnit := do
  change id (·.openSlot slot.name)
  change id (·.assign slot value)

/-- Lets an object refer to another one. -/
def link (reference : Feature) (source target : ObjectId) : Edit PUnit := do
  let found ← object target
  refuse (!found.type.conformsTo reference.target)
    (.typeMismatch reference.name reference.target found.type.name)
  change source (·.openReference reference.name)
  let object ← object source
  refuse (!reference.many && !(object.targets reference.name).isEmpty)
    (.alreadySet reference.name)
  change source (·.refer reference.name target)

/-- Lets an object hold another one. -/
def addChild (composition : Feature) (parent child : ObjectId) :
    Edit PUnit := do
  let _ ← object parent
  let held ← object child
  refuse held.place.isSome (.alreadyHeld child)
  refuse (!held.type.conformsTo composition.target)
    (.typeMismatch composition.name composition.target held.type.name)
  change parent (·.openComposition composition.name)
  let holder ← object parent
  refuse (!composition.many && !(holder.held composition.name).isEmpty)
    (.alreadySet composition.name)
  change parent (·.holdBy composition.name child)
  change parent (·.attach child)
  change child fun o => { o with place := some ⟨parent, composition.name⟩ }

end Edit

/-! ### What comes of it -/

/-- A change that is made altogether or not at all: the new graph, or the broken
rule and the graph as it was. -/
def settle (g : Graph) : Except Error Graph → Except Error PUnit × Graph
  | .ok h => (.ok ⟨⟩, h)
  | .error e => (.error e, g)

theorem exec_setName (g : Graph) (id : ObjectId) (name : String) :
    (Edit.setName id name).exec g = g.settle (g.setName id name) := by
  rw [setName_eq]
  unfold Edit.setName
  cases ho : g.object? id with
  | none => exact Edit.exec_change_of_none ho _
  | some o => exact Edit.exec_change_of_some ho _

theorem exec_setValue (g : Graph) (slot : Slot) (id : ObjectId)
    (value : Value) :
    (Edit.setValue slot id value).exec g =
      g.settle (g.setValue slot id value) := by
  rw [setValue_eq]
  unfold Edit.setValue
  cases ho : g.object? id with
  | none => exact Edit.exec_bind_of_error (Edit.exec_change_of_none ho _) _
  | some o =>
    have hopen : ((·.assign slot value) ∘ (·.openSlot slot.name)) =
        fun o : Object => o.assign slot value :=
      funext fun o => o.assign_openSlot slot value
    rw [Edit.exec_bind_of_ok (Edit.exec_change_of_some ho _),
      Edit.exec_change_of_some (object?_update_self ho _), update_update, hopen]
    rfl

/-- A feature is full if it has its one object. -/
theorem full_iff {many : Bool} {ids : List ObjectId} :
    (!many && !ids.isEmpty) = true ↔ many = false ∧ ids ≠ [] := by
  simp

theorem exec_link (g : Graph) (reference : Feature)
    (source target : ObjectId) :
    (Edit.link reference source target).exec g =
      g.settle (g.link reference source target) := by
  rw [link_eq]
  unfold Edit.link
  cases ht : g.object? target with
  | none => exact Edit.exec_bind_of_error (Edit.exec_object_of_none ht) _
  | some found =>
    rw [Edit.exec_bind_of_ok (Edit.exec_object_of_some ht)]
    dsimp only
    cases found.type.conformsTo reference.target with
    | false => exact Edit.exec_bind_of_error (Edit.exec_refuse _ _ g) _
    | true =>
      rw [Edit.exec_bind_of_ok (Edit.exec_refuse _ _ g)]
      cases hs : g.object? source with
      | none => exact Edit.exec_bind_of_error (Edit.exec_change_of_none hs _) _
      | some object =>
        have hs' := object?_update_self hs (·.openReference reference.name)
        rw [Edit.exec_bind_of_ok (Edit.exec_change_of_some hs _),
          Edit.exec_bind_of_ok (Edit.exec_object_of_some hs'),
          Object.targets_openReference]
        simp only [Bool.true_eq_false, if_false]
        by_cases hfull : reference.many = false ∧
            object.targets reference.name ≠ []
        · -- a feature that is full had its entry before
          have hsame : g.update source (·.openReference reference.name) = g :=
            update_of_eq hs (Object.openReference_of_ne_nil hfull.2)
          rw [full_iff.2 hfull, hsame, if_pos hfull]
          exact Edit.exec_bind_of_error (Edit.exec_refuse _ _ g) _
        · have hopen : ((·.refer reference.name target) ∘
                (·.openReference reference.name)) =
              fun o : Object => o.refer reference.name target :=
            funext fun o => o.refer_openReference reference.name target
          rw [Bool.eq_false_iff.2 (mt full_iff.1 hfull), if_neg hfull,
            Edit.exec_bind_of_ok (Edit.exec_refuse _ _ _),
            Edit.exec_change_of_some hs', update_update, hopen]
          rfl

/-- The three notes of an attachment, one after the other. -/
theorem exec_attach {parent child : ObjectId} {holder held : Object}
    (hp : g.object? parent = some holder) (hc : g.object? child = some held)
    (composition : String) :
    (do
      Edit.change parent (·.holdBy composition child)
      Edit.change parent (·.attach child)
      Edit.change child fun o =>
        { o with place := some ⟨parent, composition⟩ }).exec
      (g.update parent (·.openComposition composition)) =
      (.ok ⟨⟩, (g.update parent (·.hold composition child)).update child
        fun o => { o with place := some ⟨parent, composition⟩ }) := by
  have hp₁ := object?_update_self hp (·.openComposition composition)
  have hp₂ := object?_update_self hp₁ (·.holdBy composition child)
  have hhold : ((·.attach child) ∘ (·.holdBy composition child)) ∘
        (·.openComposition composition) =
      fun o : Object => o.hold composition child :=
    funext fun o => o.hold_openComposition composition child
  rw [Edit.exec_bind_of_ok (Edit.exec_change_of_some hp₁ _),
    Edit.exec_bind_of_ok (Edit.exec_change_of_some hp₂ _), update_update,
    update_update, hhold]
  have hlt : child.index < (g.update parent (·.hold composition child)).size :=
    (size_update ..).symm ▸ lt_size_of_object? hc
  obtain ⟨o, ho⟩ := object?_eq_some_of_lt hlt
  exact Edit.exec_change_of_some ho _

theorem exec_addChild (g : Graph) (composition : Feature)
    (parent child : ObjectId) :
    (Edit.addChild composition parent child).exec g =
      g.settle (g.addChild composition parent child) := by
  rw [addChild_eq]
  unfold Edit.addChild
  cases hp : g.object? parent with
  | none => exact Edit.exec_bind_of_error (Edit.exec_object_of_none hp) _
  | some holder =>
    rw [Edit.exec_bind_of_ok (Edit.exec_object_of_some hp)]
    cases hc : g.object? child with
    | none => exact Edit.exec_bind_of_error (Edit.exec_object_of_none hc) _
    | some held =>
      rw [Edit.exec_bind_of_ok (Edit.exec_object_of_some hc)]
      dsimp only
      cases held.place.isSome with
      | true => exact Edit.exec_bind_of_error (Edit.exec_refuse _ _ g) _
      | false =>
        rw [Edit.exec_bind_of_ok (Edit.exec_refuse _ _ g)]
        cases held.type.conformsTo composition.target with
        | false => exact Edit.exec_bind_of_error (Edit.exec_refuse _ _ g) _
        | true =>
          have hp' := object?_update_self hp
            (·.openComposition composition.name)
          rw [Edit.exec_bind_of_ok (Edit.exec_refuse _ _ g),
            Edit.exec_bind_of_ok (Edit.exec_change_of_some hp _),
            Edit.exec_bind_of_ok (Edit.exec_object_of_some hp'),
            Object.held_openComposition]
          simp only [Bool.true_eq_false, Bool.false_eq_true, if_false]
          by_cases hfull : composition.many = false ∧
              holder.held composition.name ≠ []
          · -- as for references
            have hsame : g.update parent
                (·.openComposition composition.name) = g :=
              update_of_eq hp (Object.openComposition_of_ne_nil hfull.2)
            rw [full_iff.2 hfull, hsame, if_pos hfull]
            exact Edit.exec_bind_of_error (Edit.exec_refuse _ _ g) _
          · rw [Bool.eq_false_iff.2 (mt full_iff.1 hfull), if_neg hfull,
              Edit.exec_bind_of_ok (Edit.exec_refuse _ _ _)]
            exact exec_attach hp hc composition.name

/-- Makes a change in place. -/
def Operation.perform : Operation → Edit PUnit
  | .instantiate type isRoot => do
    let _ ← Edit.instantiate type isRoot
  | .setName object name => Edit.setName object name
  | .setValue slot object value => Edit.setValue slot object value
  | .link reference source target => Edit.link reference source target
  | .addChild composition parent child =>
    Edit.addChild composition parent child

/-- Made in place, a change comes to the graph that it gives, and one that breaks
a rule to the graph as it was. -/
theorem exec_perform (g : Graph) (op : Operation) :
    op.perform.exec g = g.settle (op.apply g) := by
  cases op with
  | instantiate type isRoot => rfl
  | setName object name => exact exec_setName g object name
  | setValue slot object value => exact exec_setValue g slot object value
  | link reference source target => exact exec_link g reference source target
  | addChild composition parent child =>
    exact exec_addChild g composition parent child

/-- Behind a change in place stands the graph of a step. -/
theorem exec_perform_snd (g : Graph) (op : Operation) :
    (op.perform.exec g).2 = g.step op := by
  rw [exec_perform]
  unfold step settle
  cases op.apply g <;> rfl

theorem exec_perform_eq_ok {op : Operation} :
    op.perform.exec g = (.ok ⟨⟩, h) ↔ op.apply g = .ok h := by
  rw [exec_perform]
  unfold settle
  cases op.apply g with
  | ok k => simp
  | error e => simp

/-- A change that breaks a rule leaves the graph as it was. -/
theorem eq_of_exec_perform_error {op : Operation} {e : Error}
    (he : op.perform.exec g = (.error e, h)) : h = g := by
  rw [exec_perform] at he
  unfold settle at he
  split at he
  · cases he
  · exact (Prod.mk.inj he).2.symm

end Graph

end ModelText
