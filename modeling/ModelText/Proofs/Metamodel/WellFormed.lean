import ModelText.Proofs.Graph.Conformance
import ModelText.Proofs.Metamodel.Declarations

/-!
# Checked catalogs are well formed

The catalog of a schema finds every type under its own name. The slots of its
object and record types are of types that it has, and their defaults fit them;
what an object type inherits was checked where it was declared. An object type
has one slot of a name, since a slot replaces the one of its name that is
inherited or declared before it.
-/

namespace ModelText

namespace Catalog

/-- The type of a slot is one of values, and the default, if there is one, fits
the slot. -/
structure SlotSound (c : Catalog) (slot : Slot) : Prop where
  type : ∃ type, c.lookup? slot.type = some type ∧ ∀ t, type ≠ .object t
  default : slot.default = .null ∨
    ∀ g : Graph, g.Fits c.metamodel slot slot.default

/-- What the checks of a schema are for. -/
structure WellFormed (c : Catalog) : Prop where
  name : ∀ {name type}, c.lookup? name = some type → type.name = name
  slots : ∀ {name type structured}, c.lookup? name = some type →
    type.structured? = some structured →
    ∀ slot ∈ structured.slots, c.SlotSound slot
  nodup : ∀ {name type}, c.lookup? name = some (.object type) →
    (type.slots.map (·.name)).Nodup

end Catalog

/-! ### Slots -/

/-- What a slot that passes the checks is like. -/
structure Context.Checked (c : Context) (slot : Slot) (kind : DeclaredKind) :
    Prop where
  declared : c.kinds.get? slot.type = some kind
  value : kind ≠ .object
  default : slot.default = .null ∨
    ∃ value, c.defaultValue kind slot.type value = .ok slot.default

theorem Context.checked_of_slot {c : Context} {owner : String}
    {d : SlotDefinition} {slot : Slot} (h : c.slot owner d = .ok slot) :
    ∃ kind, c.Checked slot kind := by
  unfold Context.slot at h
  split at h
  · cases h
  · cases h
  · rename_i kind ho hk
    have hv : kind ≠ .object := ho
    split at h
    · cases h
      exact ⟨kind, hk, hv, .inl rfl⟩
    · rename_i value hd
      split at h
      · rename_i v hx
        cases h
        exact ⟨kind, hk, hv, .inr ⟨value, hx⟩⟩
      · cases h

theorem Context.admits_of_defaultValue {c : Context} {kind : PrimitiveKind}
    {type : String} {value : DefaultValue} {v : Value}
    (h : c.defaultValue (.primitive kind) type value = .ok v) :
    kind.Admits v := by
  cases kind <;> cases value <;> cases h <;> trivial

theorem Context.enumerated_of_defaultValue {c : Context} {type : String}
    {value : DefaultValue} {v : Value}
    (h : c.defaultValue .enumerated type value = .ok v) :
    ∃ text e, v = .enumerated text ∧ e ∈ c.enums ∧ e.name = type ∧
      e.hasLiteral text = true := by
  cases value with
  | text text =>
    simp only [defaultValue] at h
    split at h
    · rename_i ha
      cases h
      obtain ⟨e, he, hx⟩ := List.any_eq_true.1 ha
      rw [Bool.and_eq_true, beq_iff_eq] at hx
      exact ⟨text, e, rfl, he, hx.1, hx.2⟩
    · cases h
  | boolean => cases h
  | integer => cases h
  | decimal => cases h

/-! ### Inheritance -/

section

variable {α : Type} {key : α → String}

theorem mem_replaceOrAppend {x y : α} {list : List α}
    (h : y ∈ replaceOrAppend key x list) : y = x ∨ y ∈ list := by
  induction list with
  | nil => exact .inl (List.mem_singleton.1 h)
  | cons first rest ih =>
    unfold replaceOrAppend at h
    split at h
    · rcases List.mem_cons.1 h with h | h
      · exact .inl h
      · exact .inr (List.mem_cons_of_mem _ h)
    · rcases List.mem_cons.1 h with h | h
      · exact .inr (h ▸ List.mem_cons_self)
      · rcases ih h with h | h
        · exact .inl h
        · exact .inr (List.mem_cons_of_mem _ h)

theorem nodup_replaceOrAppend (x : α) {list : List α}
    (h : (list.map key).Nodup) : ((replaceOrAppend key x list).map key).Nodup := by
  induction list with
  | nil => exact List.nodup_singleton _
  | cons first rest ih =>
    obtain ⟨hn, hd⟩ := List.nodup_cons.1 h
    unfold replaceOrAppend
    split
    · rename_i hk
      rw [List.map_cons, ← hk]
      exact h
    · rename_i hk
      refine List.nodup_cons.2 ⟨fun hm => ?_, ih hd⟩
      obtain ⟨y, hy, he⟩ := List.mem_map.1 hm
      rcases mem_replaceOrAppend hy with rfl | hy
      · exact hk he.symm
      · exact hn (List.mem_map.2 ⟨y, hy, he⟩)

theorem mem_mergeNamed {y : α} {into items : List α}
    (h : y ∈ mergeNamed key into items) : y ∈ into ∨ y ∈ items := by
  induction items generalizing into with
  | nil => exact .inl h
  | cons x rest ih =>
    rcases ih h with h | h
    · rcases mem_replaceOrAppend h with rfl | h
      · exact .inr List.mem_cons_self
      · exact .inl h
    · exact .inr (List.mem_cons_of_mem x h)

theorem nodup_mergeNamed {into items : List α} (h : (into.map key).Nodup) :
    ((mergeNamed key into items).map key).Nodup := by
  induction items generalizing into with
  | nil => exact h
  | cons x rest ih => exact ih (nodup_replaceOrAppend x h)

end

/-- Slots that passed the checks, one of each name. -/
structure Context.SlotsChecked (c : Context) (slots : List Slot) : Prop where
  nodup : (slots.map (·.name)).Nodup
  checked : ∀ slot ∈ slots, ∃ kind, c.Checked slot kind

/-- Types that were built under their own names from slots that passed the
checks. -/
def Context.TypesChecked (c : Context) (built : NameMap ObjectType) : Prop :=
  ∀ name type, built.get? name = some type →
    type.name = name ∧ c.SlotsChecked type.slots

namespace Context

variable {c : Context}

theorem SlotsChecked.merge {into items : List Slot} (h : c.SlotsChecked into)
    (hi : ∀ slot ∈ items, ∃ kind, c.Checked slot kind) :
    c.SlotsChecked (mergeNamed (·.name) into items) where
  nodup := nodup_mergeNamed h.nodup
  checked slot hs := by
    rcases mem_mergeNamed hs with hs | hs
    · exact h.checked slot hs
    · exact hi slot hs

theorem complete_checked {language : String} {d : ObjectDefinition}
    {inherited : Inheritance} (hi : c.SlotsChecked inherited.slots)
    {type : ObjectType} (h : c.complete language d inherited = .ok type) :
    type.name = d.name ∧ c.SlotsChecked type.slots := by
  unfold complete at h
  obtain ⟨slots, hs, h⟩ := exists_of_bind_ok h
  obtain ⟨compositions, -, h⟩ := exists_of_bind_ok h
  obtain ⟨references, -, h⟩ := exists_of_bind_ok h
  cases h
  refine ⟨rfl, hi.merge fun slot hm => ?_⟩
  obtain ⟨_, -, hd⟩ := mem_of_mapM_ok hs hm
  exact checked_of_slot hd

theorem TypesChecked.insert {built : NameMap ObjectType}
    (h : c.TypesChecked built) {name : String} {type : ObjectType}
    (ht : type.name = name ∧ c.SlotsChecked type.slots) :
    c.TypesChecked (built.insert name type) := by
  intro other found hf
  rw [NameMap.get?_insert] at hf
  split at hf
  · cases hf
    rename_i hn
    rw [hn]
    exact ht
  · exact h other found hf

/-- The types that inheritance needs are built on the way. -/
theorem objectType_checked {defined free : List (String × ObjectDefinition)}
    {built built' : NameMap ObjectType} {name : String} {type : ObjectType}
    (hb : c.TypesChecked built)
    (h : c.objectType defined free built name = .ok (type, built')) :
    c.TypesChecked built' ∧ type.name = name ∧ c.SlotsChecked type.slots := by
  induction hn : free.length using Nat.strongRecOn
    generalizing free built built' name type with
  | ind n ih =>
    subst hn
    unfold objectType at h
    split at h
    · rename_i ht
      cases h
      exact ⟨hb, hb name _ ht⟩
    · split at h
      · cases h
      · rename_i language d hf
        obtain ⟨-, hd, hl⟩ := of_find?_free hf
        obtain ⟨⟨inherited, built₁⟩, hi, h⟩ := exists_of_bind_ok h
        obtain ⟨t, ht, h⟩ := exists_of_bind_ok h
        cases h
        have hp : c.SlotsChecked inherited.slots ∧ c.TypesChecked built₁ := by
          refine foldlM_ok (P := fun i : Inheritance × NameMap ObjectType =>
            c.SlotsChecked i.1.slots ∧ c.TypesChecked i.2) ?_ ?_ hi
          · rintro ⟨inherited, built⟩ supertype - ⟨inherited', built'⟩
              ⟨hs, hb⟩ hx
            dsimp only at hx
            split at hx
            · obtain ⟨⟨t, built₂⟩, ht, hx⟩ := exists_of_bind_ok hx
              cases hx
              obtain ⟨hb', -, hc⟩ := ih _ hl hb ht rfl
              exact ⟨hs.merge hc.checked, hb'⟩
            · cases hx
          · refine ⟨⟨List.nodup_nil, fun slot hs => ?_⟩, hb⟩
            cases hs
        obtain ⟨hn, hc⟩ := complete_checked hp.1 ht
        exact ⟨hp.2.insert ⟨hn.trans hd, hc⟩, hn.trans hd, hc⟩

theorem objectTypes_checked {defined : List (String × ObjectDefinition)}
    {names : List String} {objects : NameMap ObjectType}
    (h : c.objectTypes defined names = .ok objects) : c.TypesChecked objects := by
  refine foldlM_ok (P := c.TypesChecked) ?_ (fun _ _ hf => by cases hf) h
  intro built name _ built' hb hx
  cases ho : c.objectType defined defined built name with
  | error e =>
    rw [ho] at hx
    cases hx
  | ok result =>
    rw [ho] at hx
    cases hx
    exact (objectType_checked hb ho).1

theorem recordType_checked {language : String} {d : RecordDefinition}
    {type : RecordType} (h : c.recordType language d = .ok type) :
    type.name = d.name ∧ ∀ slot ∈ type.slots, ∃ kind, c.Checked slot kind := by
  obtain ⟨slots, hs, h⟩ := exists_of_bind_ok h
  cases h
  refine ⟨rfl, fun slot hm => ?_⟩
  obtain ⟨_, -, hd⟩ := mem_of_mapM_ok hs hm
  exact checked_of_slot hd

end Context

/-! ### Catalogs -/

namespace Schema

/-- The pieces from which the catalog of a schema is put together. -/
structure Assembled (s : Schema) (c : Catalog) (d : Declarations)
    (records : List RecordType) (objects : NameMap ObjectType) : Prop where
  declarations : s.declarations = .ok d
  recordTypes : s.recordDefinitions.mapM (fun (language, definition) =>
    (⟨d.kinds, s.enumTypes⟩ : Context).recordType language definition) =
      .ok records
  objectTypes : (⟨d.kinds, s.enumTypes⟩ : Context).TypesChecked objects
  built : (⟨d.kinds, s.enumTypes⟩ : Context).objectTypes s.objectDefinitions
    (d.kinds.names.filter fun name => d.kinds.get? name = some .object) =
      .ok objects
  types : c.types = d.kinds.filterMap (typeInfo? s.enumTypes records objects)

theorem assembled_of_catalog {s : Schema} {c : Catalog}
    (h : s.catalog = .ok c) : ∃ d records objects, s.Assembled c d records objects := by
  unfold catalog at h
  obtain ⟨d, hd, h⟩ := exists_of_bind_ok h
  obtain ⟨records, hr, h⟩ := exists_of_bind_ok h
  obtain ⟨objects, ho, h⟩ := exists_of_bind_ok h
  cases h
  exact ⟨d, records, objects, hd, hr, Context.objectTypes_checked ho, ho, rfl⟩

namespace Assembled

variable {s : Schema} {c : Catalog} {d : Declarations}
  {records : List RecordType} {objects : NameMap ObjectType}
  (h : s.Assembled c d records objects)

include h

theorem lookup?_eq (name : String) :
    c.lookup? name = (d.kinds.get? name).bind
      (typeInfo? s.enumTypes records objects name) := by
  unfold Catalog.lookup?
  rw [h.types, NameMap.get?_filterMap]

theorem checked_of_mem_records {r : RecordType} (hr : r ∈ records) :
    ∀ slot ∈ r.slots, ∃ kind,
      (⟨d.kinds, s.enumTypes⟩ : Context).Checked slot kind := by
  obtain ⟨_, -, hd⟩ := mem_of_mapM_ok h.recordTypes hr
  exact (Context.recordType_checked hd).2

theorem exists_record {name : String}
    (hk : d.kinds.get? name = some .record) :
    ∃ r, records.find? (·.name = name) = some r := by
  obtain ⟨⟨language, definition⟩, hm, hn⟩ :=
    exists_recordDefinition h.declarations hk
  obtain ⟨r, hr, hd⟩ := exists_mem_of_mapM_ok h.recordTypes hm
  obtain ⟨found, -, -, hfound⟩ :=
    exists_find?_key hr ((Context.recordType_checked hd).1.trans hn)
  exact ⟨found, hfound⟩

theorem exists_enum {name : String}
    (hk : d.kinds.get? name = some .enumerated) :
    ∃ e, s.enumTypes.find? (·.name = name) = some e := by
  obtain ⟨e, hm, hn⟩ := exists_enumType h.declarations hk
  obtain ⟨found, -, -, hfound⟩ := exists_find?_key hm hn
  exact ⟨found, hfound⟩

/-- A type is found where the types of its kind are. -/
theorem cases_of_lookup? {name : String} {type : TypeInfo}
    (hl : c.lookup? name = some type) :
    (∃ kind, type = .primitive ⟨name, kind⟩) ∨
      (∃ e : EnumType, e.name = name ∧ type = .enumerated e) ∨
      (∃ r ∈ records, r.name = name ∧ type = .record r) ∨
      ∃ t, objects.get? name = some t ∧ type = .object t := by
  rw [h.lookup?_eq, Option.bind_eq_some_iff] at hl
  obtain ⟨kind, -, ht⟩ := hl
  cases kind with
  | primitive kind => exact .inl ⟨kind, (Option.some.inj ht).symm⟩
  | enumerated =>
    obtain ⟨e, he, rfl⟩ := Option.map_eq_some_iff.1 ht
    have hn := List.find?_some he
    exact .inr (.inl ⟨e, of_decide_eq_true hn, rfl⟩)
  | record =>
    obtain ⟨r, hr, rfl⟩ := Option.map_eq_some_iff.1 ht
    have hn := List.find?_some hr
    have hm := List.mem_of_find?_eq_some hr
    exact .inr (.inr (.inl ⟨r, hm, of_decide_eq_true hn, rfl⟩))
  | object =>
    obtain ⟨t, ho, rfl⟩ := Option.map_eq_some_iff.1 ht
    exact .inr (.inr (.inr ⟨t, ho, rfl⟩))

theorem get?_of_lookup? {name : String} {t : ObjectType}
    (hl : c.lookup? name = some (.object t)) : objects.get? name = some t := by
  rcases h.cases_of_lookup? hl with
    ⟨kind, he⟩ | ⟨e, -, he⟩ | ⟨r, -, -, he⟩ | ⟨u, ho, he⟩
  · cases he
  · cases he
  · cases he
  · cases he
    exact ho

theorem mem_records_of_lookup? {name : String} {t : RecordType}
    (hl : c.lookup? name = some (.record t)) : t ∈ records ∧ t.name = name := by
  rcases h.cases_of_lookup? hl with
    ⟨kind, he⟩ | ⟨e, -, he⟩ | ⟨r, hr, hn, he⟩ | ⟨u, -, he⟩
  · cases he
  · cases he
  · cases he
    exact ⟨hr, hn⟩
  · cases he

/-- The name of a type that is looked up is the name it is looked up by. -/
theorem name_of_lookup? {name : String} {type : TypeInfo}
    (hl : c.lookup? name = some type) : type.name = name := by
  rcases h.cases_of_lookup? hl with
    ⟨kind, rfl⟩ | ⟨e, hn, rfl⟩ | ⟨r, -, hn, rfl⟩ | ⟨t, ho, rfl⟩
  · rfl
  · exact hn
  · exact hn
  · exact (h.objectTypes name t ho).1

theorem checked_of_lookup? {name : String} {type : TypeInfo}
    {structured : StructuredType} (hl : c.lookup? name = some type)
    (hs : type.structured? = some structured) :
    ∀ slot ∈ structured.slots, ∃ kind,
      (⟨d.kinds, s.enumTypes⟩ : Context).Checked slot kind := by
  rcases h.cases_of_lookup? hl with
    ⟨kind, rfl⟩ | ⟨e, -, rfl⟩ | ⟨r, hr, -, rfl⟩ | ⟨t, ho, rfl⟩
  · cases hs
  · cases hs
  · cases hs
    exact h.checked_of_mem_records hr
  · cases hs
    exact (h.objectTypes name t ho).2.checked

theorem nodup_of_lookup? {name : String} {type : ObjectType}
    (hl : c.lookup? name = some (.object type)) :
    (type.slots.map (·.name)).Nodup :=
  (h.objectTypes name type (h.get?_of_lookup? hl)).2.nodup

theorem slotSound {slot : Slot} {kind : DeclaredKind}
    (hc : (⟨d.kinds, s.enumTypes⟩ : Context).Checked slot kind) :
    c.SlotSound slot := by
  have hk : d.kinds.get? slot.type = some kind := hc.declared
  have hl := h.lookup?_eq slot.type
  rw [hk, Option.bind_some] at hl
  -- A default is a value of the kind of the slot, never a record.
  cases kind with
  | object => exact absurd rfl hc.value
  | primitive kind =>
    refine ⟨⟨_, hl, nofun⟩, hc.default.imp_right ?_⟩
    rintro ⟨value, hv⟩ g
    exact Graph.fits_of_primitive hl (Context.admits_of_defaultValue hv)
  | enumerated =>
    obtain ⟨e, he⟩ := h.exists_enum hk
    rw [typeInfo?, he] at hl
    refine ⟨⟨_, hl, nofun⟩, hc.default.imp_right ?_⟩
    rintro ⟨value, hv⟩ g
    obtain ⟨text, e', ht, hm, hn, hx⟩ := Context.enumerated_of_defaultValue hv
    have hs := List.find?_some he
    have hs : e.name = slot.type := of_decide_eq_true hs
    have heq : e' = e := enumType_unique h.declarations hm
      (List.mem_of_find?_eq_some he) (hn.trans hs.symm)
    rw [ht]
    exact Graph.fits_of_enumerated hl (heq ▸ hx)
  | record =>
    obtain ⟨r, hr⟩ := h.exists_record hk
    rw [typeInfo?, hr] at hl
    refine ⟨⟨_, hl, nofun⟩, hc.default.imp_right ?_⟩
    rintro ⟨value, hv⟩ g
    cases hv

end Assembled

/-- A schema that passes the checks has a well-formed catalog. -/
theorem wellFormed_catalog {s : Schema} {c : Catalog} (h : s.catalog = .ok c) :
    c.WellFormed := by
  obtain ⟨d, records, objects, ha⟩ := assembled_of_catalog h
  refine ⟨ha.name_of_lookup?, fun hl hs slot hm => ?_, ha.nodup_of_lookup?⟩
  obtain ⟨kind, hc⟩ := ha.checked_of_lookup? hl hs slot hm
  exact ha.slotSound hc

end Schema

end ModelText
