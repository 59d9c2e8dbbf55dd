import ModelText.Proofs.Metamodel.Inheritance

/-!
# One feature of a name

Slots and features are looked up by name, and the first one of a name is found.
So a list is all there to be found as long as no name is in it twice.

The lists of an object type are merged, its own definitions like inherited ones,
and a later item takes the place of an earlier one of its name. A name is in them
once, whatever the schema repeats. The slots of a record type are not merged: it
has one for each definition, and of two with one name the later one is never
found. Names are unique in a catalog just where no record definition repeats one.
-/

namespace ModelText

/-! ### Items told apart by name -/

/-- No two items of a list have one name, and what is found under a name is the
only item of this name. So every item is found. -/
structure NamedApart {α : Type} (key : α → String) (list : List α) : Prop where
  nodup : (list.map key).Nodup
  find?_iff : ∀ name x,
    list.find? (key · = name) = some x ↔ x ∈ list ∧ key x = name

section

variable {α : Type} {key : α → String}

/-- An item behind one of its name is not found. -/
theorem find?_append_cons_of_mem {before after : List α} {x : α}
    (h : key x ∈ before.map key) :
    ∃ y ∈ before, (before ++ x :: after).find? (key · = key x) = some y := by
  obtain ⟨z, hz, hk⟩ := List.mem_map.1 h
  obtain ⟨y, hy, -, hfound⟩ := exists_find?_key hz hk
  refine ⟨y, hy, ?_⟩
  rw [List.find?_append, hfound, Option.some_or]

theorem namedApart_iff_nodup {list : List α} :
    NamedApart key list ↔ (list.map key).Nodup :=
  ⟨NamedApart.nodup, fun h => ⟨h, fun _ _ => find?_key_eq_some_iff h⟩⟩

/-! ### Merging and repeated names -/

theorem replaceOrAppend_of_notMem {x : α} {list : List α}
    (h : key x ∉ list.map key) : replaceOrAppend key x list = list ++ [x] := by
  induction list with
  | nil => rfl
  | cons y rest ih =>
    rw [List.map_cons, List.mem_cons, not_or] at h
    rw [replaceOrAppend, if_neg (Ne.symm h.1), ih h.2, List.cons_append]

theorem mergeNamed_eq_append {into items : List α}
    (h : ((into ++ items).map key).Nodup) :
    mergeNamed key into items = into ++ items := by
  induction items generalizing into with
  | nil => exact (List.append_nil into).symm
  | cons x rest ih =>
    have hx : key x ∉ into.map key := fun hm => by
      rw [List.map_append, List.map_cons] at h
      exact (List.nodup_append.1 h).2.2 _ hm _ List.mem_cons_self rfl
    -- no item so far has the name of the first one, which goes behind them
    have happend : into ++ x :: rest = into ++ [x] ++ rest := by simp
    rw [happend] at h ⊢
    rw [← ih h, ← replaceOrAppend_of_notMem hx]
    rfl

/-- Merging leaves a list as it is just where no name is in it twice. -/
theorem mergeNamed_nil_eq_self_iff {list : List α} :
    mergeNamed key [] list = list ↔ (list.map key).Nodup := by
  constructor
  · intro h
    rw [← h]
    exact nodup_mergeNamed List.nodup_nil
  · exact fun h => mergeNamed_eq_append h

end

namespace Listing

variable {δ α : Type} (l : Listing δ α) {s : Schema} {definitions : List δ}
  {items : List α}

theorem names_eq (h : List.Forall₂ (l.Gives s) definitions items) :
    items.map l.name = definitions.map l.defined :=
  map_eq_map_of_forall₂ h.flip fun _ _ hg => l.name_of_gives hg

/-- The first item of a name is given by the first definition of this name. -/
theorem find?_first_gives (h : List.Forall₂ (l.Gives s) definitions items)
    (name : String) :
    Option.Rel (l.Gives s) (definitions.find? (l.defined · = name))
      (items.find? (l.name · = name)) := by
  have hr := l.find?_gives (List.forall₂_reverse_iff.2 h) name
  rwa [List.reverse_reverse, List.reverse_reverse] at hr

end Listing

/-! ### Record types -/

/-- A record type has a slot for each slot of its definition, and under a name
the first of them is found. A slot behind one of its name is there for nothing.
The slots are told apart by name just where the definition repeats no name, which
is where they are as merging would leave them. -/
structure RecordType.ListsAsDefined (t : RecordType) (s : Schema)
    (d : RecordDefinition) : Prop where
  slots : List.Forall₂ (Listing.slots.Gives s) d.slots t.slots
  first : ∀ name, Option.Rel (Listing.slots.Gives s)
    (d.slots.find? (·.name = name)) (slotNamed? t.slots name)
  hidden : ∀ before slot after, t.slots = before ++ slot :: after →
    slot.name ∈ before.map (·.name) →
    ∃ other ∈ before, slotNamed? t.slots slot.name = some other
  apart_iff : NamedApart (·.name) t.slots ↔ (d.slots.map (·.name)).Nodup
  merged_iff : mergeNamed (·.name) [] t.slots = t.slots ↔
    (d.slots.map (·.name)).Nodup

theorem RecordType.ListsAsDefined.of_gives {t : RecordType} {s : Schema}
    {d : RecordDefinition}
    (h : List.Forall₂ (Listing.slots.Gives s) d.slots t.slots) :
    t.ListsAsDefined s d := by
  have hnames : t.slots.map (·.name) = d.slots.map (·.name) :=
    Listing.slots.names_eq h
  refine ⟨h, Listing.slots.find?_first_gives h,
    fun before slot after hs hm => ?_, ?_, ?_⟩
  · rw [hs]
    exact find?_append_cons_of_mem hm
  · rw [namedApart_iff_nodup, hnames]
  · rw [mergeNamed_nil_eq_self_iff, hnames]

theorem Context.recordType_gives {s : Schema} {c : Context} (hc : c.Of s)
    {language : String} {d : RecordDefinition} {t : RecordType}
    (h : c.recordType language d = .ok t) :
    List.Forall₂ (Listing.slots.Gives s) d.slots t.slots := by
  obtain ⟨slots, hs, h⟩ := exists_of_bind_ok h
  cases h
  exact (forall₂_of_mapM_ok hs).imp fun _ _ hx => slot_eq hc hx

namespace Schema

variable {s : Schema} {c : Catalog} {name : String}

theorem declares_record {language : String} {d : RecordDefinition}
    (hd : (language, d) ∈ s.recordDefinitions) : s.Declares d.name .record := by
  obtain ⟨l, hl, hm⟩ := List.mem_flatMap.1 hd
  obtain ⟨d', hd', he⟩ := List.mem_map.1 hm
  cases he
  refine List.mem_append_right _ (List.mem_flatMap.2 ⟨l, hl, ?_⟩)
  simp only [LanguageDefinition.declares, List.append_assoc]
  exact List.mem_append_right _
    (List.mem_append_left _ (List.mem_map.2 ⟨d, hd', rfl⟩))

/-- A record type of a catalog lists what its definition does. -/
theorem record_of_catalog (h : s.catalog = .ok c) {t : RecordType}
    (ht : c.lookup? name = some (.record t)) :
    ∃ language d, (language, d) ∈ s.recordDefinitions ∧ d.name = name ∧
      t.ListsAsDefined s d := by
  obtain ⟨declared, records, objects, ha⟩ := assembled_of_catalog h
  obtain ⟨hr, hn⟩ := ha.mem_records_of_lookup? ht
  obtain ⟨⟨language, d⟩, hd, hx⟩ := mem_of_mapM_ok ha.recordTypes hr
  exact ⟨language, d, hd, (Context.recordType_checked hx).1.symm.trans hn,
    .of_gives (Context.recordType_gives ha.context_of hx)⟩

/-- Every record definition is that of a record type of the catalog. -/
theorem exists_lookup?_of_record (h : s.catalog = .ok c) {language : String}
    {d : RecordDefinition} (hd : (language, d) ∈ s.recordDefinitions) :
    ∃ t, c.lookup? d.name = some (.record t) ∧ t.ListsAsDefined s d := by
  obtain ⟨declared, records, objects, ha⟩ := assembled_of_catalog h
  have hk : declared.kinds.get? d.name = some .record :=
    ha.context_of.get?_eq_some_iff.2 (declares_record hd)
  obtain ⟨t, ht⟩ := ha.exists_record hk
  have hl : c.lookup? d.name = some (.record t) := by
    rw [ha.lookup?_eq, hk, Option.bind_some, typeInfo?, ht, Option.map_some]
  obtain ⟨language', d', hd', hn, hlists⟩ := record_of_catalog h hl
  cases List.inj_on_of_nodup_map
    (nodup_recordDefinitions (valid_of_catalog h).types) hd' hd hn
  exact ⟨t, hl, hlists⟩

end Schema

/-! ### The law -/

/-- The slots of an object type and its features of either sort can be told apart
by name, so that `slot?`, `composition?` and `reference?` find each of them. -/
structure ObjectType.NamesApart (t : ObjectType) : Prop where
  slots : NamedApart (·.name) t.slots
  compositions : NamedApart (·.name) t.compositions
  references : NamedApart (·.name) t.references

/-- All that the types of a catalog list can be told apart by name. -/
structure Catalog.NamesApart (c : Catalog) : Prop where
  objects : ∀ name t, c.lookup? name = some (.object t) → t.NamesApart
  records : ∀ name t, c.lookup? name = some (.record t) →
    NamedApart (·.name) t.slots

namespace Schema

variable {s : Schema} {c : Catalog} {name : String}

theorem object_namesApart (h : s.catalog = .ok c) {t : ObjectType}
    (ht : c.lookup? name = some (.object t)) : t.NamesApart := by
  have hapart : ∀ {δ α : Type} (l : Listing δ α),
      NamedApart l.name (l.all t) := fun l =>
    namedApart_iff_nodup.2 (inherits_of_catalog h ht l).nodup
  exact ⟨hapart Listing.slots, hapart Listing.compositions,
    hapart Listing.references⟩

/-- In a catalog, the names of what an object type lists are unique. A record
type lists what its definition does, so all names are unique just where no record
definition repeats one. -/
theorem catalog_names_apart (h : s.catalog = .ok c) :
    (∀ name t, c.lookup? name = some (.object t) → t.NamesApart) ∧
      (∀ name t, c.lookup? name = some (.record t) →
        ∃ language d, (language, d) ∈ s.recordDefinitions ∧ d.name = name ∧
          t.ListsAsDefined s d) ∧
      (c.NamesApart ↔ ∀ language d, (language, d) ∈ s.recordDefinitions →
        (d.slots.map (·.name)).Nodup) := by
  refine ⟨fun _ _ => object_namesApart h, fun _ _ => record_of_catalog h,
    fun hc language d hd => ?_, fun hd => ⟨fun _ _ => object_namesApart h,
      fun name t ht => ?_⟩⟩
  · obtain ⟨t, ht, hlists⟩ := exists_lookup?_of_record h hd
    exact hlists.apart_iff.1 (hc.records d.name t ht)
  · obtain ⟨language, d, hm, -, hlists⟩ := record_of_catalog h ht
    exact hlists.apart_iff.2 (hd language d hm)

/-- A shape and a record with the same definitions: one name for two sizes. -/
def doubled : Schema :=
  let shape := shapeType "Shape" [] [1, 2]
  ⟨[⟨"shapes", [], [shape], [⟨"Extent", shape.slots⟩], [], []⟩]⟩

/-- A slot for a size. -/
def sizeSlot (size : Int64) : Slot :=
  ⟨"size", "Integer", false, false, .integer size⟩

/-- The shape, as it is built. -/
def sizedShape : ObjectType :=
  ⟨"Shape", "shapes", false, true, .empty, [sizeSlot 2], [], []⟩

/-- The record, as it is built. -/
def extent : RecordType := ⟨"Extent", "shapes", [sizeSlot 1, sizeSlot 2]⟩

theorem exists_lookup?_doubled : ∃ c, doubled.catalog = .ok c ∧
    c.lookup? "Shape" = some (.object sizedShape) ∧
    c.lookup? "Extent" = some (.record extent) :=
  exists_ok_of_any (by decide +kernel)

/-- The shape has the second size alone. The record has both and finds the first
one, whichever of them is looked up. -/
theorem catalog_names_apart_doubled : ∃ c, doubled.catalog = .ok c ∧
    c.lookup? "Shape" = some (.object sizedShape) ∧
    sizedShape.NamesApart ∧
    c.lookup? "Extent" = some (.record extent) ∧
    slotNamed? extent.slots (sizeSlot 2).name = some (sizeSlot 1) := by
  obtain ⟨c, hc, hs, he⟩ := exists_lookup?_doubled
  obtain ⟨hobjects, hrecords, -⟩ := catalog_names_apart hc
  obtain ⟨language, d, -, -, hlists⟩ := hrecords "Extent" extent he
  obtain ⟨other, hm, hfound⟩ :=
    hlists.hidden [sizeSlot 1] (sizeSlot 2) [] rfl (.head _)
  rw [List.mem_singleton.1 hm] at hfound
  exact ⟨c, hc, hs, hobjects "Shape" sizedShape hs, he, hfound⟩

/-- So what a record type lists cannot always be told apart by name. -/
theorem doubled_not_namesApart : ∃ c, doubled.catalog = .ok c ∧
    ¬ c.NamesApart := by
  obtain ⟨c, hc, -, he⟩ := exists_lookup?_doubled
  refine ⟨c, hc, fun ha => ?_⟩
  have hnodup := (ha.records "Extent" extent he).nodup
  exact absurd hnodup (by decide)

end Schema

end ModelText
