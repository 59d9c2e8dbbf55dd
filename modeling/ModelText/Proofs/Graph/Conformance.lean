import ModelText.Metamodel.Catalog
import ModelText.Proofs.Graph.Changes
import ModelText.Proofs.NameMap

/-!
# Graphs that conform to a catalog

An object conforms to a catalog when its type is one of the catalog that has
objects, the values under each name fit the first slot of that name, and the
objects under each name are of the kind that the feature of that name expects,
and no more than it takes. The values and edges look at other objects only for
their types, so a change that keeps the types and makes one object conform again
makes the graph conform again.
-/

namespace ModelText

/-- A value is one for a primitive type of some kind. -/
def PrimitiveKind.Admits : PrimitiveKind → Value → Prop
  | .integer, .integer _ => True
  | .decimal, .decimal _ => True
  | .boolean, .boolean _ => True
  | .string, .string _ => True
  | .other, .string _ => True
  | _, _ => False

/-- There are objects of the type. -/
def Catalog.HasObjects (c : Catalog) : StructuredType → Prop
  | .object type =>
    type.isAbstract = false ∧ c.lookup? type.name = some (.object type)
  | .record type => c.lookup? type.name = some (.record type)

namespace Graph

/-- A value is one for a slot of some type: a primitive value of its kind, a
literal of its enumeration, or an object of exactly its record type. -/
def Fits (g : Graph) (m : Metamodel) (slot : Slot) (value : Value) :
    Prop :=
  match m.lookup? slot.type, value with
  | some (.primitive type), value => type.kind.Admits value
  | some (.enumerated type), .enumerated name => type.hasLiteral name = true
  | some (.record type), .record object => g.type? object = some (.record type)
  | _, _ => False

/-- The values under each name belong to a slot of the type: they fit it, and
there is one if it takes only one. -/
def SlotsFit (g : Graph) (m : Metamodel) (type : StructuredType)
    (slots : NameMap (List Value)) : Prop :=
  ∀ name values, slots.get? name = some values →
    ∃ slot, type.slot? name = some slot ∧
      (∀ value ∈ values, g.Fits m slot value) ∧
      (slot.many = false → values.length = 1)

/-- The objects under each name belong to a feature of the type: they are of the
kind it expects, and there is at most one if it takes only one. -/
def EdgesFit (g : Graph) (feature? : ObjectType → String → Option Feature)
    (type : StructuredType) (edges : NameMap (List ObjectId)) : Prop :=
  ∀ name objects, edges.get? name = some objects →
    ∃ holder feature, type = .object holder ∧
      feature? holder name = some feature ∧
      (∀ id ∈ objects, ∃ found, g.type? id = some found ∧
        found.conformsTo feature.target = true) ∧
      (feature.many = false → objects.length ≤ 1)

/-- What a catalog demands of an object of a graph. -/
structure ObjectConforms (g : Graph) (c : Catalog) (o : Object) : Prop where
  type : c.HasObjects o.type
  slots : g.SlotsFit c.metamodel o.type o.slots
  compositions : g.EdgesFit ObjectType.composition? o.type o.compositions
  references : g.EdgesFit ObjectType.reference? o.type o.references

/-- All objects of the graph are as the catalog demands. -/
def Conforms (g : Graph) (c : Catalog) : Prop :=
  ∀ id o, g.object? id = some o → g.ObjectConforms c o

/-- The objects of `g` are objects of `h`, of the same types. -/
def TypesStay (g h : Graph) : Prop :=
  ∀ id type, g.type? id = some type → h.type? id = some type

/-! ### Values that fit -/

section

variable {g : Graph} {m : Metamodel} {slot : Slot}

theorem fits_of_primitive {name : String} {kind : PrimitiveKind} {value : Value}
    (hl : m.lookup? slot.type = some (.primitive ⟨name, kind⟩))
    (hv : kind.Admits value) : g.Fits m slot value := by
  unfold Fits
  rw [hl]
  exact hv

theorem fits_of_enumerated {type : EnumType} {name : String}
    (hl : m.lookup? slot.type = some (.enumerated type))
    (hn : type.hasLiteral name = true) : g.Fits m slot (.enumerated name) := by
  unfold Fits
  rw [hl]
  exact hn

theorem fits_of_record {type : RecordType} {object : ObjectId}
    (hl : m.lookup? slot.type = some (.record type))
    (ht : g.type? object = some (.record type)) :
    g.Fits m slot (.record object) := by
  unfold Fits
  rw [hl]
  exact ht

end

/-! ### Types that stay -/

section

variable {g h : Graph} (hs : g.TypesStay h)

include hs

theorem Fits.mono {m : Metamodel} {slot : Slot} {value : Value}
    (hf : g.Fits m slot value) : h.Fits m slot value := by
  unfold Fits at hf ⊢
  split at hf
  · exact hf
  · exact hf
  · exact hs _ _ hf
  · exact hf.elim

theorem EdgesFit.mono {feature? : ObjectType → String → Option Feature}
    {type : StructuredType} {edges : NameMap (List ObjectId)}
    (he : g.EdgesFit feature? type edges) : h.EdgesFit feature? type edges := by
  intro name objects ho
  obtain ⟨holder, feature, ht, hf, hc, hn⟩ := he name objects ho
  refine ⟨holder, feature, ht, hf, fun id hi => ?_, hn⟩
  obtain ⟨found, hfound, hconf⟩ := hc id hi
  exact ⟨found, hs _ _ hfound, hconf⟩

theorem ObjectConforms.mono {c : Catalog} {o : Object}
    (ho : g.ObjectConforms c o) : h.ObjectConforms c o where
  type := ho.type
  slots name values hv := by
    obtain ⟨slot, hslot, hf, hn⟩ := ho.slots name values hv
    exact ⟨slot, hslot, fun value hm => (hf value hm).mono hs, hn⟩
  compositions := ho.compositions.mono hs
  references := ho.references.mono hs

end

theorem TypesStay.refl (g : Graph) : g.TypesStay g := fun _ _ h => h

theorem typesStay_update {g : Graph} {id : ObjectId} {f : Object → Object}
    (hf : ∀ o, (f o).type = o.type) : g.TypesStay (g.update id f) := by
  intro other type ht
  rw [type?_update hf]
  exact ht

theorem typesStay_instantiate (g : Graph) (type : StructuredType)
    (isRoot : Bool) : g.TypesStay (g.instantiate type isRoot).2 :=
  fun _ _ ht => type?_instantiate_of_some ht

/-! ### Changes of one object -/

section

variable {g : Graph} {c : Catalog} {o : Object}

theorem objectConforms_new {type : StructuredType} (ht : c.HasObjects type) :
    g.ObjectConforms c (.new type) where
  type := ht
  slots _ _ h := by cases h
  compositions _ _ h := by cases h
  references _ _ h := by cases h

theorem ObjectConforms.assign (h : g.ObjectConforms c o) {slot : Slot}
    {value : Value} (hs : o.type.slot? slot.name = some slot)
    (hf : g.Fits c.metamodel slot value) :
    g.ObjectConforms c (o.assign slot value) where
  type := h.type
  slots name values hv := by
    change (o.slots.update slot.name _).get? name = some values at hv
    change ∃ found, o.type.slot? name = some found ∧ _
    rw [NameMap.get?_update] at hv
    split at hv
    · rename_i hn
      rw [hn]
      cases hv
      refine ⟨slot, hs, ?_⟩
      cases hm : slot.many with
      | false =>
        refine ⟨fun v hv => ?_, fun _ => rfl⟩
        rw [List.mem_singleton.1 hv]
        exact hf
      | true =>
        refine ⟨fun v hv => ?_, nofun⟩
        rcases List.mem_append.1 hv with hv | hv
        · obtain ⟨given, hg, hv⟩ := NameMap.exists_of_mem_getD hv
          obtain ⟨found, hfound, hall, -⟩ := h.slots _ _ hg
          rw [hs] at hfound
          cases hfound
          exact hall v hv
        · rw [List.mem_singleton.1 hv]
          exact hf
    · exact h.slots name values hv
  compositions := h.compositions
  references := h.references

/-- One more object under the name of a feature. -/
theorem EdgesFit.update {feature? : ObjectType → String → Option Feature}
    {holder : ObjectType} {edges : NameMap (List ObjectId)}
    (h : g.EdgesFit feature? (.object holder) edges) {feature : Feature}
    (hf : feature? holder feature.name = some feature) {id : ObjectId}
    {found : StructuredType} (ht : g.type? id = some found)
    (hc : found.conformsTo feature.target = true)
    (hr : feature.many = false → (edges.get? feature.name).getD [] = []) :
    g.EdgesFit feature? (.object holder)
      (edges.update feature.name fun objects => objects.getD [] ++ [id]) := by
  intro name objects ho
  rw [NameMap.get?_update] at ho
  split at ho
  · rename_i hn
    rw [hn]
    cases ho
    refine ⟨holder, feature, rfl, hf, fun other hm => ?_, fun hmany => ?_⟩
    · rcases List.mem_append.1 hm with hm | hm
      · obtain ⟨given, hg, hm⟩ := NameMap.exists_of_mem_getD hm
        obtain ⟨holder', feature', he, hf', hall, -⟩ := h _ _ hg
        cases he
        rw [hf] at hf'
        cases hf'
        exact hall other hm
      · rw [List.mem_singleton.1 hm]
        exact ⟨found, ht, hc⟩
    · rw [hr hmany]
      exact Nat.le_refl 1
  · exact h name objects ho

theorem ObjectConforms.hold (h : g.ObjectConforms c o) {type : ObjectType}
    (hp : o.type = .object type) {composition : Feature}
    (hf : type.composition? composition.name = some composition)
    {child : ObjectId} {found : StructuredType}
    (ht : g.type? child = some found)
    (hc : found.conformsTo composition.target = true)
    (hr : composition.many = false → o.held composition.name = []) :
    g.ObjectConforms c (o.hold composition.name child) where
  type := h.type
  slots := h.slots
  compositions := by
    have ho := h.compositions
    change g.EdgesFit _ o.type _
    rw [hp] at ho ⊢
    exact ho.update hf ht hc hr
  references := h.references

theorem ObjectConforms.refer (h : g.ObjectConforms c o) {type : ObjectType}
    (hp : o.type = .object type) {reference : Feature}
    (hf : type.reference? reference.name = some reference)
    {target : ObjectId} {found : StructuredType}
    (ht : g.type? target = some found)
    (hc : found.conformsTo reference.target = true)
    (hr : reference.many = false → o.targets reference.name = []) :
    g.ObjectConforms c (o.refer reference.name target) where
  type := h.type
  slots := h.slots
  compositions := h.compositions
  references := by
    have ho := h.references
    change g.EdgesFit _ o.type _
    rw [hp] at ho ⊢
    exact ho.update hf ht hc hr

end

/-! ### Changes of a graph -/

theorem conforms_empty (c : Catalog) : empty.Conforms c := by
  intro id o h
  cases h

section

variable {g : Graph} {c : Catalog}

theorem Conforms.instantiate (h : g.Conforms c) {type : StructuredType}
    (ht : c.HasObjects type) (isRoot : Bool) :
    (g.instantiate type isRoot).2.Conforms c := by
  intro id o ho
  rw [object?_instantiate] at ho
  split at ho
  · cases ho
    exact objectConforms_new ht
  · exact (h id o ho).mono (typesStay_instantiate g type isRoot)

theorem Conforms.update (h : g.Conforms c) {id : ObjectId}
    {f : Object → Object} (hf : ∀ o, (f o).type = o.type)
    (ho : ∀ o, g.object? id = some o → g.ObjectConforms c o →
      g.ObjectConforms c (f o)) : (g.update id f).Conforms c := by
  intro other found hfound
  refine ObjectConforms.mono (typesStay_update hf) ?_
  rcases object?_update_eq_some hfound with hfound | ⟨o, hid, rfl⟩
  · exact h other found hfound
  · exact ho o hid (h id o hid)

theorem Conforms.setName (h : g.Conforms c) {id : ObjectId} {name : String}
    {g' : Graph} (hm : g.setName id name = .ok g') : g'.Conforms c := by
  rw [setName_eq_ok hm]
  refine h.update ?_ fun o _ ho => ?_
  · exact fun _ => rfl
  · exact ⟨ho.type, ho.slots, ho.compositions, ho.references⟩

theorem Conforms.setValue (h : g.Conforms c) {slot : Slot} {id : ObjectId}
    {value : Value} {type : StructuredType} (ht : g.type? id = some type)
    (hs : type.slot? slot.name = some slot) (hf : g.Fits c.metamodel slot value)
    {g' : Graph} (hm : g.setValue slot id value = .ok g') : g'.Conforms c := by
  rw [setValue_eq_ok hm]
  refine h.update ?_ fun o hid ho => ?_
  · exact fun _ => rfl
  · rw [← type_of_type? ht hid] at hs
    exact ho.assign hs hf

theorem Conforms.addChild (h : g.Conforms c) {composition : Feature}
    {parent child : ObjectId} {type : ObjectType}
    (ht : g.type? parent = some (.object type))
    (hf : type.composition? composition.name = some composition)
    {g' : Graph} (hm : g.addChild composition parent child = .ok g') :
    g'.Conforms c := by
  obtain ⟨⟨holder, held, hh⟩, rfl⟩ := addChild_eq_ok hm
  have hp : holder.type = .object type := type_of_type? ht hh.parent
  have hc : g.type? child = some held.type := type?_of_object? hh.child
  refine (h.update ?_ fun o hid ho => ?_).update ?_ fun o _ ho => ?_
  · exact fun _ => rfl
  · rw [hh.parent] at hid
    cases hid
    exact ho.hold hp hf hc hh.conforms hh.room
  · exact fun _ => rfl
  · exact ⟨ho.type, ho.slots, ho.compositions, ho.references⟩

theorem Conforms.link (h : g.Conforms c) {reference : Feature}
    {source target : ObjectId} {type : ObjectType}
    (ht : g.type? source = some (.object type))
    (hf : type.reference? reference.name = some reference)
    {g' : Graph} (hm : g.link reference source target = .ok g') :
    g'.Conforms c := by
  obtain ⟨⟨object, found, hr⟩, rfl⟩ := link_eq_ok hm
  have hp : object.type = .object type := type_of_type? ht hr.source
  have hc : g.type? target = some found.type := type?_of_object? hr.target
  refine h.update ?_ fun o hid ho => ?_
  · exact fun _ => rfl
  · rw [hr.source] at hid
    cases hid
    exact ho.refer hp hf hc hr.conforms hr.room

end

end Graph

end ModelText
