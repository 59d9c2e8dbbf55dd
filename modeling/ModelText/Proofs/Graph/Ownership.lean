import ModelText.Proofs.Graph.Conformance
import ModelText.Proofs.Graph.Owned
import Mathlib.Data.List.Nodup

/-!
# Ownership as a forest

An object owns the records in its slots and the elements it holds. In a graph
that is a forest, every owner is older than what it owns, nothing is owned by
two objects or twice by one, only elements are held, and what an object says of
its holder agrees with what the holder says of its contents.

No change of a graph asks for that. It stays true where only what is loose is
given an owner, and an older one; `Graph.Grows` follows it through changes,
together with the objects that are still loose.

In a forest every walk ends, and an outline shows each object below it once.
-/

namespace ModelText.Graph

open Relation (TransGen ReflTransGen)

variable {g h k : Graph} {but : List ObjectId} {id : ObjectId}

/-- Every owner comes before what it owns, and nothing is owned by two objects
or twice by one. -/
structure Descends (g : Graph) : Prop where
  order : ∀ {owner id}, g.Owns owner id → owner.index < id.index
  sole : ∀ {owner owner' id}, g.Owns owner id → g.Owns owner' id →
    owner = owner'
  once : ∀ owner, (g.owned owner).Nodup

/-- Ownership descends. The records in slots are records, what is held and what
stands for itself are elements, and the holders of the elements and the contents
of the holders tell the same. -/
structure Forest (g : Graph) : Prop extends Descends g where
  records : ∀ {owner id}, id ∈ g.records owner →
    ∃ type, g.type? id = some (.record type)
  contents : ∀ {owner id}, id ∈ g.contents owner →
    ∃ type, g.type? id = some (.object type)
  roots : ∀ id ∈ g.roots, ∃ type, g.type? id = some (.object type)
  holder : ∀ {owner id}, g.parent? id = some owner ↔ id ∈ g.contents owner
  children : ∀ owner, (g.children owner).Perm (g.contents owner)

/-- An object of a type that nobody owns. -/
structure Loose (g : Graph) (id : ObjectId) (type : StructuredType) : Prop where
  type : g.type? id = some type
  free : ∀ owner, ¬ g.Owns owner id

/-- The graph has become another forest. Its objects are there with their types,
and those not in the list are as loose as they were. -/
structure Grows (but : List ObjectId) (g h : Graph) : Prop where
  forest : h.Forest
  types : g.TypesStay h
  loose : ∀ {id type}, id ∉ but → g.Loose id type → h.Loose id type

/-! ### What a forest is like -/

namespace Forest

variable (hg : g.Forest)

include hg

theorem type?_of_owns {owner id : ObjectId} (h : g.Owns owner id) :
    ∃ type, g.type? id = some type := by
  unfold Owns at h
  rw [owned_eq] at h
  rcases List.mem_append.1 h with h | h
  · obtain ⟨type, ht⟩ := hg.records h
    exact ⟨_, ht⟩
  · obtain ⟨type, ht⟩ := hg.contents h
    exact ⟨_, ht⟩

/-- Nobody holds a record, and it does not stand for itself. -/
theorem record {type : RecordType} (ht : g.type? id = some (.record type)) :
    g.parent? id = none ∧ id ∉ g.roots := by
  constructor
  · cases hp : g.parent? id with
    | none => rfl
    | some owner =>
      obtain ⟨_, ho⟩ := hg.contents (hg.holder.1 hp)
      cases ht.symm.trans ho
  · intro hr
    obtain ⟨_, ho⟩ := hg.roots id hr
    cases ht.symm.trans ho

end Forest

/-! ### Changes -/

theorem Descends.add {owner : ObjectId} {added : List ObjectId}
    (hg : g.Descends)
    (hc : ∀ other x, (h.owned other).count x ≤
      (if other = owner then added else []).count x + (g.owned other).count x)
    (hn : added.Nodup)
    (hl : ∀ x ∈ added, owner.index < x.index ∧ ∀ other, ¬ g.Owns other x) :
    h.Descends := by
  have hm : ∀ {other x}, h.Owns other x →
      (other = owner ∧ x ∈ added) ∨ g.Owns other x := fun hx =>
    mem_of_count_le (hc _ _) hx
  constructor
  · intro other x hx
    rcases hm hx with ⟨rfl, hx⟩ | hx
    · exact (hl x hx).1
    · exact hg.order hx
  · intro other other' x hx hx'
    rcases hm hx with ⟨rfl, hx⟩ | hx
    · rcases hm hx' with ⟨rfl, -⟩ | hx'
      · rfl
      · exact absurd hx' ((hl x hx).2 other')
    · rcases hm hx' with ⟨rfl, hx'⟩ | hx'
      · exact absurd hx ((hl x hx').2 other)
      · exact hg.sole hx hx'
  · intro other
    refine List.nodup_iff_count_le_one.2 fun x => Nat.le_trans (hc other x) ?_
    have hold := List.nodup_iff_count_le_one.1 (hg.once other) x
    split
    · by_cases hx : x ∈ added
      · have := List.nodup_iff_count_le_one.1 hn x
        have := List.count_eq_zero_of_not_mem ((hl x hx).2 other)
        omega
      · rw [List.count_eq_zero_of_not_mem hx]
        omega
    · rw [List.count_nil]
      omega

namespace Grows

theorem refl (hg : g.Forest) : Grows but g g := ⟨hg, .refl g, fun _ h => h⟩

theorem trans (hg : Grows but g h) (hh : Grows but h k) : Grows but g k where
  forest := hh.forest
  types id type ht := hh.types id type (hg.types id type ht)
  loose hid hl := hh.loose hid (hg.loose hid hl)

theorem mono {but' : List ObjectId} (hg : Grows but g h) (hb : but ⊆ but') :
    Grows but' g h :=
  ⟨hg.forest, hg.types, fun hid hl => hg.loose (fun hm => hid (hb hm)) hl⟩

theorem size_le (hg : Grows but g h) : g.size ≤ h.size := by
  refine Nat.le_of_not_lt fun hn => ?_
  have hi : (⟨h.size⟩ : ObjectId).index < g.size := hn
  obtain ⟨o, ho⟩ := object?_eq_some_of_lt hi
  have := lt_size_of_type? (hg.types _ _ (type?_of_object? ho))
  exact Nat.lt_irrefl _ this

/-- Objects that came later do not count. -/
theorem forget (hg : Grows [] g h) (hh : Grows but h k)
    (hb : ∀ id ∈ but, g.size ≤ id.index) : Grows [] g k where
  forest := hh.forest
  types id type ht := hh.types id type (hg.types id type ht)
  loose {id type} hid hl := by
    refine hh.loose (fun hm => ?_) (hg.loose hid hl)
    have := hb id hm
    have := lt_size_of_type? hl.type
    omega

end Grows

namespace Forest

/-- Where ownership looks the same, there is the same forest. -/
theorem grows_congr (hg : g.Forest) (ht : g.TypesStay h)
    (hr : ∀ id, h.records id = g.records id)
    (hc : ∀ id, h.contents id = g.contents id)
    (hp : ∀ id, h.parent? id = g.parent? id)
    (hk : ∀ id, h.children id = g.children id)
    (hroots : ∀ id ∈ h.roots, id ∈ g.roots ∨
      ∃ type, h.type? id = some (.object type)) : Grows but g h := by
  have ho : ∀ {owner id}, h.Owns owner id ↔ g.Owns owner id := by
    intro owner id
    unfold Owns
    rw [owned_eq, owned_eq, hr, hc]
  have htype : ∀ {id : ObjectId} {α : Type} {kind : α → StructuredType},
      (∃ type, g.type? id = some (kind type)) →
      ∃ type, h.type? id = some (kind type) :=
    fun ⟨type, hx⟩ => ⟨type, ht _ _ hx⟩
  refine ⟨⟨⟨fun hx => hg.order (ho.1 hx),
    fun hx hx' => hg.sole (ho.1 hx) (ho.1 hx'), fun owner => ?_⟩, fun hx => ?_,
    fun hx => ?_, fun id hx => ?_, fun {owner id} => ?_, fun owner => ?_⟩, ht,
    fun _ hl => ⟨ht _ _ hl.type, fun owner hx => hl.free owner (ho.1 hx)⟩⟩
  · rw [owned_eq, hr, hc, ← owned_eq]
    exact hg.once owner
  · rw [hr] at hx
    exact htype (hg.records hx)
  · rw [hc] at hx
    exact htype (hg.contents hx)
  · exact (hroots id hx).elim (fun hx => htype (hg.roots id hx)) fun hx => hx
  · rw [hp, hc]
    exact hg.holder
  · rw [hk, hc]
    exact hg.children owner

/-- A change that has nothing to do with ownership. -/
theorem grows_update (hg : g.Forest) {f : Object → Object}
    (ht : ∀ o, (f o).type = o.type) (hs : ∀ o, (f o).slots = o.slots)
    (hc : ∀ o, (f o).compositions = o.compositions)
    (hp : ∀ o, (f o).place = o.place) (hk : ∀ o, (f o).children = o.children) :
    Grows but g (g.update id f) := by
  refine hg.grows_congr (typesStay_update ht) (records_update hs)
    (contents_update hc) (fun other => ?_) (children_update hk) fun _ => .inl
  exact congrArg (Option.map Place.holder) (place?_update hp other)

/-- A new object owns nothing and is loose. -/
theorem grows_instantiate (hg : g.Forest) (type : StructuredType)
    {isRoot : Bool} (hr : isRoot = true → ∃ t, type = .object t) :
    Grows [] g (g.instantiate type isRoot).2 ∧
      (g.instantiate type isRoot).2.Loose (g.instantiate type isRoot).1 type := by
  have hself := type?_instantiate_self g type isRoot
  constructor
  · refine hg.grows_congr (typesStay_instantiate g type isRoot) ?_ ?_ ?_ ?_ ?_
    · exact read_instantiate (F := fun o => (o.map Object.records).getD []) rfl
        isRoot
    · exact read_instantiate (F := fun o => (o.map Object.contents).getD []) rfl
        isRoot
    · exact read_instantiate
        (F := fun o => (o.bind Object.place).map Place.holder) rfl isRoot
    · exact read_instantiate (F := fun o => (o.map Object.children).getD []) rfl
        isRoot
    · intro other hx
      cases isRoot with
      | false => exact .inl hx
      | true =>
        rcases List.mem_append.1 hx with hold | hnew
        · exact .inl hold
        · obtain ⟨t, rfl⟩ := hr rfl
          rw [List.mem_singleton.1 hnew]
          exact .inr ⟨t, hself⟩
  · refine ⟨hself, fun owner hx => ?_⟩
    unfold Owns at hx
    rw [owned_instantiate] at hx
    obtain ⟨found, hf⟩ := hg.type?_of_owns hx
    exact Nat.lt_irrefl _ (lt_size_of_type? hf)

section

variable {slot : Slot} {value : Value}
  (hm : g.setValue slot id value = .ok h)
  (hv : ∀ x, value = .record x →
    id.index < x.index ∧ ∃ type, g.Loose x (.record type))

include hm hv

theorem setValue (hg : g.Forest) : h.Forest where
  toDescends := by
    refine hg.toDescends.add (count_owned_setValue hm) ?_ fun x hx => ?_
    · cases value.record? with
      | none => exact List.nodup_nil
      | some x => exact List.nodup_singleton x
    · obtain ⟨hi, type, hl⟩ := hv x (mem_record?.1 hx)
      exact ⟨hi, hl.free⟩
  records {owner x} hx := by
    rw [type?_setValue hm]
    rcases mem_of_count_le (count_records_setValue hm owner x) hx
      with ⟨-, hx⟩ | hx
    · obtain ⟨-, type, hl⟩ := hv x (mem_record?.1 hx)
      exact ⟨type, hl.type⟩
    · exact hg.records hx
  contents {owner x} hx := by
    rw [contents_setValue hm] at hx
    rw [type?_setValue hm]
    exact hg.contents hx
  roots x hx := by
    rw [setValue_eq_ok hm] at hx
    rw [type?_setValue hm]
    exact hg.roots x hx
  holder {owner x} := by
    rw [contents_setValue hm, ← hg.holder, setValue_eq_ok hm]
    refine Eq.to_iff (congrArg (fun p => Option.map Place.holder p = some owner)
      (place?_update ?_ x))
    exact fun _ => rfl
  children owner := by
    rw [contents_setValue hm, setValue_eq_ok hm, children_update]
    · exact hg.children owner
    · exact fun _ => rfl

/-- A value may be a record that is loose and younger than its holder. -/
theorem grows_setValue (hg : g.Forest) : Grows value.record?.toList g h where
  forest := hg.setValue hm hv
  types other _ ht := (type?_setValue hm other).trans ht
  loose {other _} hother hl := by
    refine ⟨(type?_setValue hm other).trans hl.type, fun owner hx => ?_⟩
    rcases owns_setValue hm hx with ⟨-, hx⟩ | hx
    · exact hother (mem_record?.2 hx)
    · exact hl.free owner hx

end

section

variable {composition : Feature} {parent child : ObjectId} {type : ObjectType}
  (hm : g.addChild composition parent child = .ok h)
  (hi : parent.index < child.index) (hl : g.Loose child (.object type))

include hm hi hl

theorem addChild (hg : g.Forest) : h.Forest where
  toDescends := by
    refine hg.toDescends.add (count_owned_addChild hm)
      (List.nodup_singleton child) fun x hx => ?_
    rw [List.mem_singleton.1 hx]
    exact ⟨hi, hl.free⟩
  records {owner x} hx := by
    rw [records_addChild hm] at hx
    rw [type?_addChild hm]
    exact hg.records hx
  contents {owner x} hx := by
    rw [type?_addChild hm]
    rcases (mem_contents_addChild hm).1 hx with ⟨-, rfl⟩ | hx
    · exact ⟨type, hl.type⟩
    · exact hg.contents hx
  roots x hx := by
    rw [(addChild_eq_ok hm).2] at hx
    rw [type?_addChild hm]
    exact hg.roots x hx
  holder {owner x} := by
    change (h.place? x).map Place.holder = some owner ↔ _
    rw [(place?_addChild hm x).2, mem_contents_addChild hm]
    by_cases hx : x = child
    · subst hx
      have hfree : x ∉ g.contents owner := by
        intro ho
        refine hl.free owner ?_
        unfold Owns
        rw [owned_eq]
        exact List.mem_append_right _ ho
      rw [if_pos rfl]
      refine ⟨fun ho => .inl ⟨(Option.some.inj ho).symm, rfl⟩, ?_⟩
      rintro (⟨rfl, -⟩ | ho)
      · rfl
      · exact absurd ho hfree
    · rw [if_neg hx]
      refine hg.holder.trans ⟨.inr, fun ho => ho.resolve_left ?_⟩
      exact fun ho => hx ho.2
  children owner := by
    refine List.perm_iff_count.2 fun x => ?_
    rw [children_addChild hm, count_contents_addChild hm, List.count_append,
      List.perm_iff_count.1 (hg.children owner) x, Nat.add_comm]

/-- An element may be held that is loose and younger than its holder. -/
theorem grows_addChild (hg : g.Forest) : Grows [child] g h where
  forest := hg.addChild hm hi hl
  types other _ ht := (type?_addChild hm other).trans ht
  loose {other _} hother ho := by
    refine ⟨(type?_addChild hm other).trans ho.type, fun owner hx => ?_⟩
    rcases owns_addChild hm hx with ⟨-, rfl⟩ | hx
    · exact hother (List.mem_singleton.2 rfl)
    · exact ho.free owner hx

end

theorem empty : Forest Graph.empty where
  order h := by cases h
  sole h := by cases h
  once _ := List.nodup_nil
  records h := by cases h
  contents h := by cases h
  roots _ h := by cases h
  holder := ⟨nofun, nofun⟩
  children _ := .nil

end Forest

/-! ### Walks -/

namespace Forest

variable (hg : g.Forest)

include hg

theorem acyclic_owns : Acyclic g.Owns := by
  have hlt : ∀ {a b}, TransGen g.Owns a b → a.index < b.index := by
    intro a b hc
    induction hc with
    | single h => exact hg.order h
    | tail _ h ih => exact Nat.lt_trans ih (hg.order h)
  exact fun id hc => Nat.lt_irrefl _ (hlt hc)

theorem acyclic_heldBy : Acyclic g.HeldBy := by
  have ho : ∀ child parent, g.HeldBy child parent → g.Owns parent child := by
    intro child parent h
    unfold Owns
    rw [owned_eq]
    exact List.mem_append_right _ (hg.holder.1 h)
  intro id hc
  refine hg.acyclic_owns id ?_
  rw [← Relation.transGen_swap]
  exact TransGen.mono ho id id hc

/-- Two objects of one owner have nothing below them in common. -/
theorem apart {owner x y z : ObjectId} (hx : g.Owns owner x)
    (hy : g.Owns owner y) (hxz : ReflTransGen g.Owns x z)
    (hyz : ReflTransGen g.Owns y z) : x = y := by
  have hsole : Relator.RightUnique (Function.swap g.Owns) :=
    fun _ _ _ h h' => hg.sole h h'
  have hring : ∀ {x y}, g.Owns owner x → g.Owns owner y →
      ReflTransGen g.Owns x y → x = y := by
    intro x y hx hy hxy
    rcases hxy.cases_tail with rfl | ⟨last, hlast, hy'⟩
    · rfl
    · cases hg.sole hy hy'
      exact absurd (TransGen.head' hx hlast) (hg.acyclic_owns owner)
  rcases ReflTransGen.total_of_right_unique hsole hxz.swap hyz.swap with h | h
  · exact (hring hy hx h.swap).symm
  · exact hring hx hy h.swap

/-- The headings of an outline are those of the objects below, and of the object
itself. -/
theorem mem_headings_iff {depth : Nat} {lines : List OutlineLine}
    (h : g.Renders depth id lines) (hi : id.index < g.size) {x : ObjectId} :
    x ∈ headings lines ↔ ReflTransGen g.Owns id x := by
  induction h with
  | missing hn =>
    obtain ⟨o, ho⟩ := object?_eq_some_of_lt hi
    cases hn.symm.trans ho
  | @object depth id o below ho hb ih =>
    rw [headings_lines, List.mem_cons, List.mem_flatMap]
    have hown : ∀ y, y ∈ o.owned ↔ g.Owns id y := by
      intro y
      rw [owns_iff]
      exact ⟨fun hy => ⟨o, ho, hy⟩, fun ⟨o', ho', hy⟩ => by
        cases ho.symm.trans ho'
        exact hy⟩
    have hin : ∀ y ∈ o.owned, y.index < g.size := by
      intro y hy
      obtain ⟨type, ht⟩ := hg.type?_of_owns ((hown y).1 hy)
      exact lt_size_of_type? ht
    constructor
    · rintro (rfl | ⟨y, hy, hx⟩)
      · exact .refl
      · exact .head ((hown y).1 hy) ((ih y hy (hin y hy)).1 hx)
    · intro hc
      rcases hc.cases_head with rfl | ⟨y, hy, hx⟩
      · exact .inl rfl
      · have hy := (hown y).2 hy
        exact .inr ⟨y, hy, (ih y hy (hin y hy)).2 hx⟩

/-- No object has two headings in an outline. -/
theorem nodup_headings {depth : Nat} {lines : List OutlineLine}
    (h : g.Renders depth id lines) : (headings lines).Nodup := by
  induction h with
  | missing => exact List.nodup_nil
  | @object depth id o below ho hb ih =>
    have hown : ∀ y ∈ o.owned, g.Owns id y :=
      fun y hy => owns_iff.2 ⟨o, ho, hy⟩
    have hbelow : ∀ y ∈ o.owned, ∀ x ∈ headings (below y),
        ReflTransGen g.Owns y x := by
      intro y hy x hx
      obtain ⟨type, ht⟩ := hg.type?_of_owns (hown y hy)
      exact (hg.mem_headings_iff (hb y hy) (lt_size_of_type? ht)).1 hx
    have honce : o.owned.Nodup := by
      have := hg.once id
      unfold owned at this
      rwa [ho] at this
    rw [headings_lines]
    refine List.nodup_cons.2 ⟨fun hm => ?_, List.nodup_flatMap.2 ⟨ih, ?_⟩⟩
    · -- the object is not below itself
      obtain ⟨y, hy, hx⟩ := List.mem_flatMap.1 hm
      exact hg.acyclic_owns id (.head' (hown y hy) (hbelow y hy id hx))
    · -- and nothing is below two of the objects that it owns
      refine honce.imp_of_mem fun {y z} hy hz hne x hx hx' => hne ?_
      exact hg.apart (hown y hy) (hown z hz) (hbelow y hy x hx)
        (hbelow z hz x hx')

end Forest

end ModelText.Graph
