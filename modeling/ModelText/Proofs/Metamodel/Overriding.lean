import ModelText.Proofs.Metamodel.Inheritance

/-!
# Which definition counts

Of several definitions of a slot or feature up from an object type, the one that
counts is found by going up: a type that does not define the name itself takes
it from the last of its direct supertypes that has it.

So a definition that overrides another one counts as long as each type gets the
name on one path only. Where a type gets it from two direct supertypes, the later
one passes the definition of the earlier one over, also if it only brings back
what was overridden there.
-/

namespace ModelText

open Relation

namespace Listing

variable {δ α : Type} (l : Listing δ α) (s : Schema) (name : String)

/-! ### Going up -/

/-- The last definition of a name in a type gives an item. -/
def Defines (type : String) (x : α) : Prop :=
  ∃ language d definition, (language, d) ∈ s.objectDefinitions ∧
    d.name = type ∧ l.last? d name = some definition ∧ l.Gives s definition x

/-- A type that does not define a name takes it from the last of its direct
supertypes that has it. -/
inductive TakesFrom : String → String → Prop
  | intro {language : String} {d : ObjectDefinition} {supertype : String}
      {before after : List String} :
    (language, d) ∈ s.objectDefinitions → l.last? d name = none →
    d.supertypes = before ++ supertype :: after →
    l.DefinedUpFrom s name supertype →
    (∀ other ∈ after, ¬ l.DefinedUpFrom s name other) →
    TakesFrom d.name supertype

/-- A type passes an overriding definition over: it takes the name from a direct
supertype that does not lead to it, behind one that does. -/
inductive PassesOver (override : String) : String → Prop
  | intro {language : String} {d : ObjectDefinition} {earlier later : String}
      {before between after : List String} :
    (language, d) ∈ s.objectDefinitions → l.last? d name = none →
    d.supertypes = before ++ earlier :: between ++ later :: after →
    ReflTransGen s.Extends earlier override →
    l.DefinedUpFrom s name later →
    ¬ ReflTransGen s.Extends later override →
    (∀ other ∈ after, ¬ l.DefinedUpFrom s name other) →
    PassesOver override d.name

variable {l s name}

theorem Defines.definedIn {type : String} {x : α}
    (h : l.Defines s name type x) : l.DefinedIn s name type := by
  obtain ⟨language, d, definition, hd, hn, hl, -⟩ := h
  exact ⟨language, d, hd, hn, by rw [hl]; rfl⟩

theorem TakesFrom.extends {type supertype : String}
    (h : l.TakesFrom s name type supertype) : s.Extends type supertype := by
  cases h with
  | intro hd _ hs _ _ =>
    exact .intro hd (hs ▸ List.mem_append_right _ List.mem_cons_self)

/-- There is one way up. -/
theorem TakesFrom.unique (hv : s.Valid) {type a b : String}
    (ha : l.TakesFrom s name type a) (hb : l.TakesFrom s name type b) :
    a = b := by
  cases ha with
  | @intro _ d _ before after hd _ hs hua hafter =>
    generalize hn : d.name = type at hb
    cases hb with
    | @intro _ d' _ before' after' hd' _ hs' hub hafter' =>
      cases Schema.definition_eq hv.types hd hd' hn.symm
      -- the one that comes first would stand before another one with the name
      rcases List.append_eq_append_iff.1 (hs.symm.trans hs') with
        ⟨_ | ⟨first, rest⟩, -, h⟩ | ⟨_ | ⟨first, rest⟩, -, h⟩
      · exact (List.cons.inj h).1
      · refine absurd hub (hafter b ?_)
        rw [(List.cons.inj h).2]
        exact List.mem_append_right rest List.mem_cons_self
      · exact (List.cons.inj h).1.symm
      · refine absurd hua (hafter' a ?_)
        rw [(List.cons.inj h).2]
        exact List.mem_append_right rest List.mem_cons_self

theorem TakesFrom.not_definedIn (hv : s.Valid) {type supertype : String}
    (h : l.TakesFrom s name type supertype) : ¬ l.DefinedIn s name type := by
  cases h with
  | intro hd hl _ _ _ =>
    rw [definedIn_iff hv hd, hl]
    exact Bool.false_ne_true

/-- Going up leads to one definition. -/
theorem origin_unique (hv : s.Valid) {type origin other : String}
    (h : ReflTransGen (l.TakesFrom s name) type origin)
    (hd : l.DefinedIn s name origin)
    (h' : ReflTransGen (l.TakesFrom s name) type other)
    (hd' : l.DefinedIn s name other) : other = origin := by
  have hstop : ∀ {a b}, l.DefinedIn s name a →
      ReflTransGen (l.TakesFrom s name) a b → a = b := by
    intro a b ha hr
    rcases ReflTransGen.cases_head hr with rfl | ⟨_, ht, -⟩
    · rfl
    · exact absurd ha (ht.not_definedIn hv)
  have hone : Relator.RightUnique (l.TakesFrom s name) :=
    fun _ _ _ => TakesFrom.unique hv
  rcases ReflTransGen.total_of_right_unique hone h h' with hr | hr
  · exact (hstop hd hr).symm
  · exact hstop hd' hr

/-- An overriding definition up from a type either is up from the supertype from
which the name is taken, or it is passed over. -/
theorem TakesFrom.reaches_or_passesOver (hv : s.Valid)
    {type supertype override : String} (h : l.TakesFrom s name type supertype)
    (hr : ReflTransGen s.Extends type override)
    (ho : l.DefinedIn s name override) :
    ReflTransGen s.Extends supertype override ∨
      l.PassesOver s name override type := by
  cases h with
  | @intro language d _ before after hd hl hs hu hafter =>
    by_cases hreach : ReflTransGen s.Extends supertype override
    · exact .inl hreach
    refine .inr ?_
    rcases ReflTransGen.cases_head hr with rfl | ⟨earlier, he, hr⟩
    · rw [definedIn_iff hv hd, hl] at ho
      cases ho
    · rw [Schema.extends_iff hv.types hd, hs, List.mem_append, List.mem_cons] at he
      rcases he with he | rfl | he
      · obtain ⟨before, between, rfl⟩ := List.append_of_mem he
        exact .intro hd hl hs hr hu hreach hafter
      · exact absurd hr hreach
      · exact absurd ⟨override, hr, ho⟩ (hafter earlier he)

/-- Going up from a type to a definition, all that the definition is overridden
by is passed over on the way. -/
theorem passesOver_of_reaches (hv : s.Valid) {type origin override : String}
    (h : ReflTransGen (l.TakesFrom s name) type origin)
    (hr : ReflTransGen s.Extends type override)
    (hs : TransGen s.Extends override origin)
    (ho : l.DefinedIn s name override) :
    ∃ branch, ReflTransGen (l.TakesFrom s name) type branch ∧
      ReflTransGen (l.TakesFrom s name) branch origin ∧
      l.PassesOver s name override branch := by
  induction h using ReflTransGen.head_induction_on with
  | refl => exact absurd (hs.trans_left hr) (hv.acyclic override)
  | head ht hrest ih =>
    rcases ht.reaches_or_passesOver hv hr ho with hr | hp
    · obtain ⟨branch, hb, hbo, hp⟩ := ih hr
      exact ⟨branch, .head ht hb, hbo, hp⟩
    · exact ⟨_, .refl, .head ht hrest, hp⟩

end Listing

/-! ### What is found -/

namespace Schema

variable {s : Schema} {c : Catalog} {name : String} {t : ObjectType}

/-- What is found under a name is what the definition gives to which going up
leads. -/
theorem exists_origin (h : s.catalog = .ok c)
    (ht : c.lookup? name = some (.object t)) {δ α : Type} {l : Listing δ α}
    {item : String} {x : α} (hx : l.find? t item = some x) :
    ∃ origin, ReflTransGen (l.TakesFrom s item) t.name origin ∧
      l.Defines s item origin x := by
  revert hx
  refine catalog_induction h (P := fun t => l.find? t item = some x →
    ∃ origin, ReflTransGen (l.TakesFrom s item) t.name origin ∧
      l.Defines s item origin x) ?_ ht
  intro t language d parents hc ih hx
  rw [hc.name]
  cases hl : l.last? d item with
  | some definition =>
    obtain ⟨x', hx', hg⟩ := (hc.listing l).own item definition hl
    rw [hx] at hx'
    cases hx'
    exact ⟨d.name, .refl, language, d, definition, hc.defined, rfl, hl, hg⟩
  | none =>
    rw [(hc.listing l).inherited item hl] at hx
    obtain ⟨later, u, earlier, hp, hu, hlater⟩ :=
      List.findSome?_eq_some_iff.1 hx
    have hparents : parents = earlier.reverse ++ u :: later.reverse := by
      rw [← List.reverse_reverse parents, hp]
      simp
    have hdirect := hc.direct
    rw [hparents] at hdirect
    obtain ⟨before, supertype, after, hs, -, hsu, hafter⟩ :=
      split_of_forall₂ hdirect
    have hn : u.name = supertype := (wellFormed_catalog h).name hsu
    obtain ⟨origin, ho, hdef⟩ := ih u
      (hparents ▸ List.mem_append_right _ List.mem_cons_self) hu
    rw [hn] at ho
    refine ⟨origin, .head (.intro hc.defined hl hs ?_ fun other hm => ?_) ho,
      hdef⟩
    · rw [← hn, ← isSome_find?_iff h hsu, hu]
      rfl
    · obtain ⟨v, hv, hvl⟩ := exists_of_mem_left hafter hm
      have hvn : v.name = other := (wellFormed_catalog h).name hvl
      rw [← hvn, ← isSome_find?_iff h hvl,
        hlater v (List.mem_reverse.1 hv)]
      exact Bool.false_ne_true

end Schema

/-! ### Overriding -/

namespace Listing

variable {δ α : Type} (l : Listing δ α) (s : Schema) (t : ObjectType)
  (name : String)

/-- What is found under a name is defined in the one type where going up leads,
and a definition that overrides this one is passed over on the way. -/
def FoundGoingUp : Prop :=
  ∀ x, l.find? t name = some x →
    ∃ origin, ReflTransGen (l.TakesFrom s name) t.name origin ∧
      l.Defines s name origin x ∧
      (∀ other, ReflTransGen (l.TakesFrom s name) t.name other →
        l.DefinedIn s name other → other = origin) ∧
      ∀ override, ReflTransGen s.Extends t.name override →
        TransGen s.Extends override origin → l.DefinedIn s name override →
        ∃ branch, ReflTransGen (l.TakesFrom s name) t.name branch ∧
          ReflTransGen (l.TakesFrom s name) branch origin ∧
          l.PassesOver s name override branch

/-- What is found under a name is defined in the type or up from it, and no
definition overrides it there. -/
def KeepsOverrides : Prop :=
  ∀ x, l.find? t name = some x →
    ∃ origin, ReflTransGen s.Extends t.name origin ∧
      l.Defines s name origin x ∧
      ∀ override, ReflTransGen s.Extends t.name override →
        TransGen s.Extends override origin → ¬ l.DefinedIn s name override

variable {l s t name}

theorem foundGoingUp_of_catalog {c : Catalog} (h : s.catalog = .ok c)
    {type : String} (ht : c.lookup? type = some (.object t)) :
    l.FoundGoingUp s t name := by
  intro x hx
  have hv := Schema.valid_of_catalog h
  obtain ⟨origin, hr, hd⟩ := Schema.exists_origin h ht hx
  exact ⟨origin, hr, hd, fun _ => origin_unique hv hr hd.definedIn,
    fun _ => passesOver_of_reaches hv hr⟩

/-- Overriding definitions count where types that do not define the name get it
from one direct supertype at most. -/
theorem FoundGoingUp.keepsOverrides (h : l.FoundGoingUp s t name)
    (hone : ∀ language d, (language, d) ∈ s.objectDefinitions →
      ReflTransGen s.Extends t.name d.name → l.last? d name = none →
      d.supertypes.Pairwise fun a b =>
        ¬ (l.DefinedUpFrom s name a ∧ l.DefinedUpFrom s name b)) :
    l.KeepsOverrides s t name := by
  have hup : ∀ {a b}, ReflTransGen (l.TakesFrom s name) a b →
      ReflTransGen s.Extends a b :=
    fun hr => ReflTransGen.mono (fun _ _ => TakesFrom.extends) _ _ hr
  intro x hx
  obtain ⟨origin, hr, hd, -, hpassed⟩ := h x hx
  refine ⟨origin, hup hr, hd, fun override hro hs ho => ?_⟩
  obtain ⟨branch, hb, -, hp⟩ := hpassed override hro hs ho
  cases hp with
  | @intro language d earlier later before between after hd hl hs he hu _ _ =>
    have hpair := hone language d hd (hup hb) hl
    rw [hs, List.append_assoc, List.cons_append] at hpair
    have hrest := (List.pairwise_append.1 hpair).2.1
    exact (List.pairwise_cons.1 hrest).1 later
      (List.mem_append_right _ List.mem_cons_self) ⟨⟨override, he, ho⟩, hu⟩

end Listing

namespace Schema

variable {s : Schema} {c : Catalog} {name : String} {t : ObjectType}

/-- Of each name, an object type has the slot and the features that are defined
where going up leads, from each type to the last direct supertype that has the
name; overriding definitions are passed over only on this way. -/
theorem catalog_found_going_up (h : s.catalog = .ok c)
    (ht : c.lookup? name = some (.object t)) (item : String) :
    Listing.slots.FoundGoingUp s t item ∧
      Listing.compositions.FoundGoingUp s t item ∧
      Listing.references.FoundGoingUp s t item :=
  ⟨Listing.foundGoingUp_of_catalog h ht, Listing.foundGoingUp_of_catalog h ht,
    Listing.foundGoingUp_of_catalog h ht⟩

/-- A ball takes its size from a round shape. -/
theorem catalog_found_going_up_ball : ∃ c, diamond.catalog = .ok c ∧
    c.lookup? "Ball" = some (.object ball) ∧
    ball.slot? "size" = some ⟨"size", "Integer", false, false, .integer 1⟩ ∧
    Listing.slots.FoundGoingUp diamond ball "size" := by
  obtain ⟨c, hc, hl⟩ := exists_lookup?_ball
  exact ⟨c, hc, hl, by decide, (catalog_found_going_up hc hl "size").1⟩

/-- So the size is that of any shape again, though a ball is a large one. -/
theorem ball_loses_override : ∃ c, diamond.catalog = .ok c ∧
    c.lookup? "Ball" = some (.object ball) ∧
    ¬ Listing.slots.KeepsOverrides diamond ball "size" := by
  obtain ⟨c, hc, hl⟩ := exists_lookup?_ball
  refine ⟨c, hc, hl, fun hk => ?_⟩
  obtain ⟨origin, -, hd, ho⟩ := hk _ (by decide : Listing.slots.find? ball "size" =
    some ⟨"size", "Integer", false, false, .integer 1⟩)
  obtain ⟨language, d, definition, hm, rfl, hl, kind, -, hx⟩ := hd
  have hall : diamond.objectDefinitions = [("shapes", shapeType "Shape" [] [1]),
    ("shapes", shapeType "Large" ["Shape"] [2]),
    ("shapes", shapeType "Round" ["Shape"] []),
    ("shapes", shapeType "Ball" ["Large", "Round"] [])] := rfl
  have hball : ("shapes", shapeType "Ball" ["Large", "Round"] []) ∈
      diamond.objectDefinitions := by simp [hall]
  have hlarge : ("shapes", shapeType "Large" ["Shape"] [2]) ∈
      diamond.objectDefinitions := by simp [hall]
  rw [hall] at hm
  simp only [List.mem_cons, List.not_mem_nil, or_false] at hm
  rcases hm with hm | hm | hm | hm
  · cases hm
    exact ho "Large" (.single (.intro hball (.head _)))
      (.single (.intro hlarge (.head _))) ⟨"shapes", _, hlarge, rfl, rfl⟩
  · cases hm
    cases hl
    have hvalue : Value.integer 1 = if kind = .primitive .decimal then
        .decimal (.ofInt (2 : Int64).toInt) else .integer 2 :=
      congrArg Slot.default hx
    split at hvalue
    · cases hvalue
    · exact absurd (Value.integer.inj hvalue) (by decide)
  · cases hm
    cases hl
  · cases hm
    cases hl

end Schema

end ModelText
