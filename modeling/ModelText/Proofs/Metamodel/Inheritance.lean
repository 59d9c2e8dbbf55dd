import ModelText.Proofs.Metamodel.Composition

/-!
# Conformance is inheritance

In a catalog, the supertypes of an object type are what inheritance leads to in
the schema, in one step or more, and conformance is the order that comes of it.
A type has a slot or feature of every name that it defines or that is defined
somewhere up from it, once, and its own definition counts before all others.

No path of inheritance goes on for ever, so what is to be shown of all object
types of a catalog may be taken for granted of the supertypes. This is
`Schema.catalog_induction`, on which all of this rests.
-/

namespace ModelText

open Relation

/-! ### Definitions of a name -/

namespace Listing

variable {δ α : Type} (l : Listing δ α) (s : Schema) (name : String)

/-- A type defines something of a name itself. -/
def DefinedIn (type : String) : Prop :=
  ∃ language d, (language, d) ∈ s.objectDefinitions ∧ d.name = type ∧
    (l.last? d name).isSome

/-- A name is defined in a type or somewhere up from it. -/
def DefinedUpFrom (type : String) : Prop :=
  ∃ origin, ReflTransGen s.Extends type origin ∧ l.DefinedIn s name origin

variable {l s name}

theorem definedIn_iff (h : s.Valid) {language : String} {d : ObjectDefinition}
    (hd : (language, d) ∈ s.objectDefinitions) :
    l.DefinedIn s name d.name ↔ (l.last? d name).isSome := by
  constructor
  · rintro ⟨language', d', hd', hn, hs⟩
    cases Schema.definition_eq h.types hd hd' hn
    exact hs
  · exact fun hs => ⟨language, d, hd, rfl, hs⟩

theorem DefinedUpFrom.of_reaches {type supertype : String}
    (h : l.DefinedUpFrom s name supertype)
    (hr : ReflTransGen s.Extends type supertype) :
    l.DefinedUpFrom s name type := by
  obtain ⟨origin, ho, hd⟩ := h
  exact ⟨origin, hr.trans ho, hd⟩

theorem definedUpFrom_iff {type : String} :
    l.DefinedUpFrom s name type ↔ l.DefinedIn s name type ∨
      ∃ supertype, s.Extends type supertype ∧
        l.DefinedUpFrom s name supertype := by
  constructor
  · rintro ⟨origin, hr, hd⟩
    rcases ReflTransGen.cases_head hr with rfl | ⟨supertype, he, hr⟩
    · exact .inl hd
    · exact .inr ⟨supertype, he, origin, hr, hd⟩
  · rintro (hd | ⟨supertype, he, hu⟩)
    · exact ⟨type, .refl, hd⟩
    · exact hu.of_reaches (.single he)

end Listing

/-! ### From supertypes to types -/

namespace Schema

variable {s : Schema} {c : Catalog}

/-- What holds of an object type once it holds of its direct supertypes holds of
all object types of a catalog. -/
theorem catalog_induction (h : s.catalog = .ok c) {P : ObjectType → Prop}
    (step : ∀ {t language d parents}, s.Composed c t language d parents →
      (∀ u ∈ parents, P u) → P t)
    {name : String} {t : ObjectType} (ht : c.lookup? name = some (.object t)) :
    P t := by
  obtain ⟨declared, records, objects, ha⟩ := assembled_of_catalog h
  obtain ⟨language, d, parents, hn, hc⟩ := composed_of_catalog h ht
  have hends : Acc (Function.swap s.Extends) name :=
    ha.ends (declares_object_iff.2 ⟨language, d, hc.defined, hn⟩)
  clear hc hn
  induction hends generalizing t with
  | intro name _ ih =>
    obtain ⟨language, d, parents, rfl, hc⟩ := composed_of_catalog h ht
    refine step hc fun u hu => ?_
    obtain ⟨supertype, hm, hl⟩ := exists_of_mem_right hc.direct hu
    exact ih supertype (.intro hc.defined hm) hl

namespace Composed

variable {t : ObjectType} {language : String} {d : ObjectDefinition}
  {parents : List ObjectType} (h : s.catalog = .ok c)
  (hc : s.Composed c t language d parents)

include h hc

theorem extends_iff {name : String} :
    s.Extends t.name name ↔ ∃ u ∈ parents, u.name = name := by
  rw [hc.name, Schema.extends_iff (valid_of_catalog h).types hc.defined]
  constructor
  · intro hm
    obtain ⟨u, hu, hl⟩ := exists_of_mem_left hc.direct hm
    exact ⟨u, hu, (wellFormed_catalog h).name hl⟩
  · rintro ⟨u, hu, rfl⟩
    obtain ⟨name, hm, hl⟩ := exists_of_mem_right hc.direct hu
    have hn : u.name = name := (wellFormed_catalog h).name hl
    rwa [hn]

end Composed

/-! ### Supertypes -/

variable {name : String} {t : ObjectType}

theorem mem_supertypes_iff (h : s.catalog = .ok c)
    (ht : c.lookup? name = some (.object t)) {supertype : String} :
    supertype ∈ t.supertypes ↔ TransGen s.Extends t.name supertype := by
  revert supertype
  refine catalog_induction h (P := fun t => ∀ {supertype},
    supertype ∈ t.supertypes ↔ TransGen s.Extends t.name supertype) ?_ ht
  intro t language d parents hc ih supertype
  rw [hc.supertypes, TransGen.head'_iff]
  constructor
  · rintro ⟨u, hu, hs⟩
    refine ⟨u.name, (hc.extends_iff h).2 ⟨u, hu, rfl⟩, ?_⟩
    rcases hs with rfl | hs
    · exact .refl
    · exact ((ih u hu).1 hs).to_reflTransGen
  · rintro ⟨direct, he, hr⟩
    obtain ⟨u, hu, rfl⟩ := (hc.extends_iff h).1 he
    exact ⟨u, hu, (reflTransGen_iff_eq_or_transGen.1 hr).imp_right (ih u hu).2⟩

theorem conformsTo_iff (h : s.catalog = .ok c)
    (ht : c.lookup? name = some (.object t)) {target : String} :
    t.conformsTo target = true ↔ ReflTransGen s.Extends t.name target := by
  rw [ObjectType.conformsTo, Bool.or_eq_true, beq_iff_eq,
    NameSet.contains_eq_true, mem_supertypes_iff h ht,
    reflTransGen_iff_eq_or_transGen, eq_comm]

/-- What inheritance leads to is an object type too. -/
theorem exists_lookup?_of_transGen (h : s.catalog = .ok c) {type : String}
    (hr : TransGen s.Extends type name) :
    ∃ t, c.lookup? name = some (.object t) := by
  obtain ⟨_, -, he⟩ := TransGen.tail'_iff.1 hr
  exact exists_lookup?_of_declares h ((valid_of_catalog h).supertypes _ _ he)

/-- Two ways of inheritance, one up and one back, lead nowhere. -/
theorem eq_of_reaches (h : s.Valid) {a b : String}
    (hab : ReflTransGen s.Extends a b) (hba : ReflTransGen s.Extends b a) :
    a = b := by
  rcases reflTransGen_iff_eq_or_transGen.1 hab with rfl | hab
  · rfl
  · exact absurd (hab.trans_left hba) (h.acyclic a)

/-! ### Inherited names -/

theorem isSome_find?_iff (h : s.catalog = .ok c)
    (ht : c.lookup? name = some (.object t)) {δ α : Type} {l : Listing δ α}
    {item : String} :
    (l.find? t item).isSome ↔ l.DefinedUpFrom s item t.name := by
  refine catalog_induction h (P := fun t =>
    (l.find? t item).isSome ↔ l.DefinedUpFrom s item t.name) ?_ ht
  intro t language d parents hc ih
  rw [Listing.definedUpFrom_iff, hc.name,
    Listing.definedIn_iff (valid_of_catalog h) hc.defined, ← hc.name]
  cases hl : l.last? d item with
  | some definition =>
    obtain ⟨x, hx, -⟩ := (hc.listing l).own item definition hl
    rw [hx]
    exact ⟨fun _ => .inl rfl, fun _ => rfl⟩
  | none =>
    rw [(hc.listing l).inherited item hl, List.findSome?_isSome_iff]
    constructor
    · rintro ⟨u, hu, hs⟩
      have hu := List.mem_reverse.1 hu
      exact .inr ⟨u.name, (hc.extends_iff h).2 ⟨u, hu, rfl⟩, (ih u hu).1 hs⟩
    · rintro (hs | ⟨supertype, he, hs⟩)
      · cases hs
      · obtain ⟨u, hu, rfl⟩ := (hc.extends_iff h).1 he
        exact ⟨u, List.mem_reverse.2 hu, (ih u hu).2 hs⟩

end Schema

/-! ### The law -/

/-- A list of an object type has an item of a name once. It has the last one
that the type defines of a name, and it has something of every name that a
supertype has something of. -/
structure Listing.Inherits {δ α : Type} (l : Listing δ α) (s : Schema)
    (c : Catalog) (t : ObjectType) : Prop where
  nodup : ((l.all t).map l.name).Nodup
  own : ∀ language d, (language, d) ∈ s.objectDefinitions → d.name = t.name →
    ∀ name definition, l.last? d name = some definition →
      ∃ x, l.find? t name = some x ∧ l.Gives s definition x
  inherited : ∀ supertype ∈ t.supertypes, ∀ u,
    c.lookup? supertype = some (.object u) →
    ∀ name, (l.find? u name).isSome → (l.find? t name).isSome

/-- What inheritance makes of an object type of a catalog: its supertypes are
what it inherits from, all of them object types, conformance is an order, and
all that a supertype has is there. -/
structure ObjectType.FollowsInheritance (t : ObjectType) (s : Schema)
    (c : Catalog) : Prop where
  supertypes : ∀ name, name ∈ t.supertypes ↔ TransGen s.Extends t.name name
  found : ∀ name ∈ t.supertypes, ∃ u, c.lookup? name = some (.object u)
  nodup : t.supertypes.toList.Nodup
  proper : t.name ∉ t.supertypes
  conformsTo : ∀ name,
    t.conformsTo name = true ↔ ReflTransGen s.Extends t.name name
  refl : t.conformsTo t.name = true
  trans : ∀ name u, c.lookup? name = some (.object u) →
    t.conformsTo name = true → ∀ target, u.conformsTo target = true →
      t.conformsTo target = true
  antisymm : ∀ name u, c.lookup? name = some (.object u) →
    t.conformsTo name = true → u.conformsTo t.name = true → t = u
  slots : Listing.slots.Inherits s c t
  compositions : Listing.compositions.Inherits s c t
  references : Listing.references.Inherits s c t

namespace Schema

variable {s : Schema} {c : Catalog} {name : String} {t : ObjectType}

theorem inherits_of_catalog (h : s.catalog = .ok c)
    (ht : c.lookup? name = some (.object t)) {δ α : Type} (l : Listing δ α) :
    l.Inherits s c t := by
  obtain ⟨language, d, parents, -, hc⟩ := composed_of_catalog h ht
  refine ⟨(hc.listing l).nodup, fun language' d' hd hn => ?_,
    fun supertype hs u hu item hi => ?_⟩
  · cases definition_eq (valid_of_catalog h).types hc.defined hd
      (hn.trans hc.name)
    exact (hc.listing l).own
  · have hn : u.name = supertype := (wellFormed_catalog h).name hu
    have hr := (mem_supertypes_iff h ht).1 hs
    rw [isSome_find?_iff h hu, hn] at hi
    rw [isSome_find?_iff h ht]
    exact hi.of_reaches hr.to_reflTransGen

/-- In a catalog, conformance is exactly inheritance, and a type has all that
its supertypes have, its own definitions counting first. -/
theorem catalog_follows_inheritance (h : s.catalog = .ok c)
    (ht : c.lookup? name = some (.object t)) :
    t.name = name ∧ t.FollowsInheritance s c where
  left := (wellFormed_catalog h).name ht
  right :=
    have hname : ∀ {name u}, c.lookup? name = some (.object u) →
        u.name = name := fun hu => (wellFormed_catalog h).name hu
    { supertypes _ := mem_supertypes_iff h ht
      found _ hs := exists_lookup?_of_transGen h ((mem_supertypes_iff h ht).1 hs)
      nodup := t.supertypes.nodup
      proper hs := (valid_of_catalog h).acyclic t.name
        ((mem_supertypes_iff h ht).1 hs)
      conformsTo _ := conformsTo_iff h ht
      refl := (conformsTo_iff h ht).2 .refl
      trans _ u hu htu target hut := by
        rw [conformsTo_iff h hu, hname hu] at hut
        exact (conformsTo_iff h ht).2 (((conformsTo_iff h ht).1 htu).trans hut)
      antisymm other u hu htu hut := by
        rw [conformsTo_iff h ht] at htu
        rw [conformsTo_iff h hu, hname hu] at hut
        have he := eq_of_reaches (valid_of_catalog h) htu hut
        rw [← he, hname ht, ht] at hu
        cases hu
        rfl
      slots := inherits_of_catalog h ht Listing.slots
      compositions := inherits_of_catalog h ht Listing.compositions
      references := inherits_of_catalog h ht Listing.references }

/-- A kind of shapes, and the sizes it defines. -/
def shapeType (name : String) (supertypes : List String) (sizes : List Int64) :
    ObjectDefinition :=
  ⟨name, false, true, supertypes, sizes.map fun size =>
    ⟨"size", "Integer", false, false, some (.integer size)⟩, [], []⟩

/-- Two types inherit the size of a shape, of which the first one defines it
anew, and a ball inherits from both. -/
def diamond : Schema :=
  ⟨[⟨"shapes", [], [shapeType "Shape" [] [1], shapeType "Large" ["Shape"] [2],
    shapeType "Round" ["Shape"] [], shapeType "Ball" ["Large", "Round"] []],
    [], [], []⟩]⟩

/-- A ball, as it is built. -/
def ball : ObjectType where
  name := "Ball"
  language := "shapes"
  isAbstract := false
  isRoot := true
  supertypes := .ofList ["Large", "Shape", "Round"]
  slots := [⟨"size", "Integer", false, false, .integer 1⟩]
  compositions := []
  references := []

theorem exists_lookup?_ball : ∃ c, diamond.catalog = .ok c ∧
    c.lookup? "Ball" = some (.object ball) :=
  exists_ok_of_any (by decide +kernel)

/-- A ball comes behind all the other types. -/
theorem catalog_follows_inheritance_ball : ∃ c, diamond.catalog = .ok c ∧
    c.lookup? "Ball" = some (.object ball) ∧
    ball.FollowsInheritance diamond c := by
  obtain ⟨c, hc, hl⟩ := exists_lookup?_ball
  exact ⟨c, hc, hl, (catalog_follows_inheritance hc hl).2⟩

end Schema

end ModelText
