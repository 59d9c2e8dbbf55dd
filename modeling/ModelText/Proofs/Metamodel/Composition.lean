import ModelText.Proofs.Metamodel.Listings

/-!
# How object types are put together

Object types are built on the way, each after its supertypes, and those that
were built are not built again. What comes of it does not tell this order: every
object type of a catalog is put together of its own definition and of its direct
supertypes as they stand in the catalog. `Schema.Composed` says this of a type
without any mention of the construction, and all that is known of inheritance is
derived from it.

The invariant is on the table of the types built so far: each is put together of
types in the table, an entry is never changed, and only types that were free are
added. The last part is what keeps a type from being added below itself.
-/

namespace ModelText

/-! ### What a type inherits -/

namespace Inheritance

theorem mem_supertypes_foldl (types : List ObjectType) (i : Inheritance)
    (name : String) :
    name ∈ (types.foldl inherit i).supertypes ↔
      name ∈ i.supertypes ∨
        ∃ t ∈ types, name = t.name ∨ name ∈ t.supertypes := by
  induction types generalizing i with
  | nil => simp
  | cons t rest ih =>
    rw [List.foldl_cons, ih]
    have hi : name ∈ (i.inherit t).supertypes ↔
        name ∈ i.supertypes ∨ name = t.name ∨ name ∈ t.supertypes := by
      change name ∈ i.supertypes.insertAll _ ↔ _
      rw [NameSet.mem_insertAll, List.mem_cons, NameSet.mem_toList]
    rw [hi, List.exists_mem_cons_iff, or_assoc]

end Inheritance

/-- Of each name, a type has its own last definition, or else what the last of
its direct supertypes has that has something of this name. -/
structure Listing.Composed {δ α : Type} (l : Listing δ α) (s : Schema)
    (t : ObjectType) (d : ObjectDefinition) (parents : List ObjectType) :
    Prop where
  nodup : ((l.all t).map l.name).Nodup
  own : ∀ name definition, l.last? d name = some definition →
    ∃ x, l.find? t name = some x ∧ l.Gives s definition x
  inherited : ∀ name, l.last? d name = none →
    l.find? t name = parents.reverse.findSome? (l.find? · name)

namespace Listing

variable {δ α : Type} (l : Listing δ α) {s : Schema} {c : Context}
  {language : String} {d : ObjectDefinition} {parents : List ObjectType}
  {t : ObjectType}

theorem inherited_foldl (types : List ObjectType) :
    l.inherited (types.foldl Inheritance.inherit .none) =
      mergeAll l.name l.all types := by
  unfold mergeAll
  rw [← l.inherited_none]
  generalize Inheritance.none = i
  induction types generalizing i with
  | nil => rfl
  | cons t rest ih =>
    rw [List.foldl_cons, List.foldl_cons, ← l.inherited_inherit, ih]

theorem nodup_all
    (h : c.complete language d (parents.foldl Inheritance.inherit .none) =
      .ok t) : ((l.all t).map l.name).Nodup := by
  obtain ⟨items, -, ha⟩ := l.all_complete h
  rw [ha, inherited_foldl]
  exact nodup_mergeNamed (nodup_mergeAll _ _)

/-- Items are found like the definitions that give them. -/
theorem find?_gives {definitions : List δ} {items : List α}
    (h : List.Forall₂ (l.Gives s) definitions items) (name : String) :
    Option.Rel (l.Gives s) (definitions.reverse.find? (l.defined · = name))
      (items.reverse.find? (l.name · = name)) := by
  induction h with
  | nil => exact .none
  | @cons definition item definitions items hg _ ih =>
    rw [List.reverse_cons, List.reverse_cons, List.find?_append,
      List.find?_append, List.find?_singleton, List.find?_singleton,
      l.name_of_gives hg]
    generalize definitions.reverse.find? (l.defined · = name) = found at ih
    generalize items.reverse.find? (l.name · = name) = found' at ih
    cases ih with
    | some hx => exact .some hx
    | none =>
      split
      · exact .some hg
      · exact .none

theorem composed (hc : c.Of s)
    (h : c.complete language d (parents.foldl Inheritance.inherit .none) =
      .ok t)
    (hn : ∀ u ∈ parents, ((l.all u).map l.name).Nodup) :
    l.Composed s t d parents := by
  obtain ⟨items, hi, ha⟩ := l.all_complete h
  have hgives : List.Forall₂ (l.Gives s) (l.own d) items :=
    (forall₂_of_mapM_ok hi).imp fun _ _ hx => l.gives_of_check hc hx
  have hfind : ∀ name, l.find? t name =
      (items.reverse.find? (l.name · = name)).or
        (parents.reverse.findSome? (l.find? · name)) := by
    intro name
    rw [find?, ha, find?_mergeNamed, inherited_foldl, find?_mergeAll hn]
    rfl
  have hown : ∀ name, Option.Rel (l.Gives s) (l.last? d name)
      (items.reverse.find? (l.name · = name)) := l.find?_gives hgives
  refine ⟨l.nodup_all h, fun name definition hl => ?_, fun name hl => ?_⟩
  all_goals
    have hr := hown name
    rw [hl] at hr
    rw [hfind]
    generalize items.reverse.find? (l.name · = name) = found at hr
  · cases hr with
    | some hx => exact ⟨_, rfl, hx⟩
  · cases hr
    rfl

end Listing

/-! ### The table of types -/

/-- Taking a definition away leaves none of its name. -/
theorem name_ne_of_mem_eraseP {free : List (String × ObjectDefinition)}
    {name : String} (h : (free.map (·.2.name)).Nodup)
    {x : String × ObjectDefinition}
    (hx : x ∈ free.eraseP (·.2.name = name)) : x.2.name ≠ name := by
  intro hn
  obtain ⟨first, before, after, hb, hf, rfl, he⟩ := List.exists_of_eraseP
    (List.mem_of_mem_eraseP hx) (p := (·.2.name = name)) (by simpa using hn)
  rw [he] at hx
  rcases List.mem_append.1 hx with hx | hx
  · exact hb x hx (by simpa using hn)
  · rw [List.map_append, List.map_cons] at h
    have hnot := (List.nodup_cons.1 (List.nodup_append.1 h).2.1).1
    rw [of_decide_eq_true hf, ← hn] at hnot
    exact hnot (List.mem_map_of_mem hx)

namespace Context

variable {s : Schema} {c : Context}

/-- A type is put together of its definition and of types in a table. -/
def Composes (c : Context) (s : Schema) (types : NameMap ObjectType)
    (name : String) (t : ObjectType) : Prop :=
  ∃ language d parents, (language, d) ∈ s.objectDefinitions ∧
    d.name = name ∧
    List.Forall₂ (fun name u => types.get? name = some u) d.supertypes
      parents ∧
    c.complete language d (parents.foldl Inheritance.inherit .none) = .ok t

theorem Composes.mono {types types' : NameMap ObjectType} {name : String}
    {t : ObjectType} (h : c.Composes s types name t)
    (hk : ∀ name u, types.get? name = some u → types'.get? name = some u) :
    c.Composes s types' name t := by
  obtain ⟨language, d, parents, hd, hn, hs, ht⟩ := h
  exact ⟨language, d, parents, hd, hn, hs.imp hk, ht⟩

/-- What building with some definitions free makes of a table: all types are put
together of types in it, what was built before is kept, and only types of free
definitions are new. -/
structure Adds (c : Context) (s : Schema)
    (free : List (String × ObjectDefinition)) (built built' : NameMap ObjectType) :
    Prop where
  composes : ∀ name t, built'.get? name = some t → c.Composes s built' name t
  kept : ∀ name t, built.get? name = some t → built'.get? name = some t
  added : ∀ name t, built'.get? name = some t →
    (∃ u, built.get? name = some u) ∨ ∃ x ∈ free, x.2.name = name

namespace Adds

variable {free : List (String × ObjectDefinition)}
  {built built₁ built₂ : NameMap ObjectType}

theorem refl
    (h : ∀ name t, built.get? name = some t → c.Composes s built name t) :
    c.Adds s free built built :=
  ⟨h, fun _ _ ht => ht, fun _ t ht => .inl ⟨t, ht⟩⟩

theorem trans (h : c.Adds s free built built₁)
    (h' : c.Adds s free built₁ built₂) : c.Adds s free built built₂ where
  composes := h'.composes
  kept name t ht := h'.kept name t (h.kept name t ht)
  added name t ht := by
    rcases h'.added name t ht with ⟨u, hu⟩ | hx
    · exact h.added name u hu
    · exact .inr hx

/-- The type whose supertypes were built is new, since its definition was not
free while they were. -/
theorem insert {language : String} {d : ObjectDefinition} {t : ObjectType}
    {parents : List ObjectType} (hfree : free ⊆ s.objectDefinitions)
    (hnodup : (free.map (·.2.name)).Nodup)
    (hd : (language, d) ∈ free) (hnone : built.get? d.name = none)
    (h : c.Adds s (free.eraseP (·.2.name = d.name)) built built₁)
    (hs : List.Forall₂ (fun name u => built₁.get? name = some u) d.supertypes
      parents)
    (ht : c.complete language d (parents.foldl Inheritance.inherit .none) =
      .ok t) : c.Adds s free built (built₁.insert d.name t) := by
  have hnew : built₁.get? d.name = none := by
    refine Option.eq_none_iff_forall_ne_some.2 fun u hu => ?_
    rcases h.added d.name u hu with ⟨t, ht⟩ | ⟨x, hx, hn⟩
    · rw [hnone] at ht
      cases ht
    · exact name_ne_of_mem_eraseP hnodup hx hn
  have hkept : ∀ name u, built₁.get? name = some u →
      (built₁.insert d.name t).get? name = some u := by
    intro name u hu
    rw [NameMap.get?_insert, if_neg, hu]
    rintro rfl
    rw [hnew] at hu
    cases hu
  refine ⟨fun name u hu => ?_, fun name u hu => hkept name u (h.kept name u hu),
    fun name u hu => ?_⟩
  · rw [NameMap.get?_insert] at hu
    split at hu
    · rename_i hn
      cases hu
      exact ⟨language, d, parents, hfree hd, hn.symm, hs.imp hkept, ht⟩
    · exact (h.composes name u hu).mono hkept
  · rw [NameMap.get?_insert] at hu
    split at hu
    · rename_i hn
      exact .inr ⟨_, hd, hn.symm⟩
    · refine (h.added name u hu).imp_right ?_
      rintro ⟨x, hx, hn⟩
      exact ⟨x, List.mem_of_mem_eraseP hx, hn⟩

end Adds

/-- A type is built, and the table gains only types that are put together as
they should. -/
theorem objectType_adds {defined free : List (String × ObjectDefinition)}
    {built : NameMap ObjectType} {name : String}
    (hfree : free ⊆ s.objectDefinitions)
    (hnodup : (free.map (·.2.name)).Nodup)
    (hb : ∀ name t, built.get? name = some t → c.Composes s built name t) :
    Verdict (fun r : ObjectType × NameMap ObjectType =>
        c.Adds s free built r.2 ∧ r.2.get? name = some r.1)
      (fun _ => True) (c.objectType defined free built name) := by
  -- every step up takes a definition away, so less and less are free
  induction hn : free.length using Nat.strongRecOn
    generalizing free built name with
  | ind n ih =>
    subst hn
    unfold objectType
    split
    · rename_i t ht
      exact ⟨.refl hb, ht⟩
    split
    · trivial
    rename_i hnone language d hfind
    obtain ⟨hm, rfl, hl⟩ := Context.of_find?_free hfind
    have hbelow : (free.eraseP (·.2.name = d.name)).Sublist free :=
      List.eraseP_sublist
    refine Verdict.bind (P := fun r : Inheritance × NameMap ObjectType =>
      ∃ parents, c.Adds s (free.eraseP (·.2.name = d.name)) built r.2 ∧
        List.Forall₂ (fun name u => r.2.get? name = some u) d.supertypes
          parents ∧
        r.1 = parents.foldl Inheritance.inherit .none) ?_ ?_
    · refine Verdict.foldlM
        (P := fun done (r : Inheritance × NameMap ObjectType) =>
          ∃ parents, c.Adds s (free.eraseP (·.2.name = d.name)) built r.2 ∧
            List.Forall₂ (fun name u => r.2.get? name = some u) done
              parents ∧
            r.1 = parents.foldl Inheritance.inherit .none) ?_
        ⟨[], .refl hb, .nil, rfl⟩
      rintro done supertype rest - ⟨inherited, built₁⟩ ⟨parents, ha, hs, hi⟩
      dsimp only at ha hs hi ⊢
      split
      · refine (ih _ hl (fun _ hx => hfree (hbelow.subset hx))
          (hnodup.sublist (hbelow.map _)) ha.composes rfl).bind ?_
        rintro ⟨u, built₂⟩ ⟨ha', hu⟩
        refine ⟨parents ++ [u], ha.trans ha', ?_, ?_⟩
        · exact List.rel_append (hs.imp ha'.kept) (.cons hu .nil)
        · rw [List.foldl_append, ← hi]
          rfl
      · trivial
    · rintro ⟨inherited, built₁⟩ ⟨parents, ha, hs, rfl⟩
      refine (Verdict.of_eq _).bind fun t ht => ?_
      refine ⟨ha.insert hfree hnodup hm hnone hs ht, ?_⟩
      exact (NameMap.get?_insert _ _ _ _).trans (if_pos rfl)

/-- All types of the table are put together as they should, and it has the types
that were asked for. -/
theorem objectTypes_composes (hc : c.Of s) {names : List String}
    {objects : NameMap ObjectType}
    (h : c.objectTypes s.objectDefinitions names = .ok objects) :
    (∀ name t, objects.get? name = some t → c.Composes s objects name t) ∧
      ∀ name ∈ names, ∃ t, objects.get? name = some t := by
  refine Verdict.of_ok (E := fun _ => True) (P := fun built =>
    (∀ name t, built.get? name = some t → c.Composes s built name t) ∧
      ∀ name ∈ names, ∃ t, built.get? name = some t) ?_ h
  refine Verdict.foldlM (P := fun done (built : NameMap ObjectType) =>
    (∀ name t, built.get? name = some t → c.Composes s built name t) ∧
      ∀ name ∈ done, ∃ t, built.get? name = some t) ?_ ⟨nofun, nofun⟩
  rintro done name rest - built ⟨hb, hdone⟩
  refine Verdict.map (objectType_adds (List.Subset.refl _)
    (Schema.nodup_objectDefinitions hc.typeNames_nodup) hb) ?_
  rintro ⟨t, built'⟩ ⟨ha, ht⟩
  refine ⟨ha.composes, fun other ho => ?_⟩
  rcases List.mem_append.1 ho with ho | ho
  · obtain ⟨u, hu⟩ := hdone other ho
    exact ⟨u, ha.kept other u hu⟩
  · rw [List.mem_singleton.1 ho]
    exact ⟨t, ht⟩

end Context

/-! ### Catalogs -/

namespace Schema

variable {s : Schema} {c : Catalog}

/-- An object type of a catalog is put together of its definition and of its
direct supertypes, which are object types of the catalog. -/
structure Composed (s : Schema) (c : Catalog) (t : ObjectType)
    (language : String) (d : ObjectDefinition) (parents : List ObjectType) :
    Prop where
  defined : (language, d) ∈ s.objectDefinitions
  name : t.name = d.name
  direct : List.Forall₂ (fun name u => c.lookup? name = some (.object u))
    d.supertypes parents
  supertypes : ∀ name, name ∈ t.supertypes ↔
    ∃ u ∈ parents, name = u.name ∨ name ∈ u.supertypes
  listing : ∀ {δ α : Type} (l : Listing δ α), l.Composed s t d parents

theorem valid_of_catalog (h : s.catalog = .ok c) : s.Valid :=
  (catalog_verdict s).of_ok h

namespace Assembled

variable {d : Declarations} {records : List RecordType}
  {objects : NameMap ObjectType} (h : s.Assembled c d records objects)

include h

theorem context_of : (⟨d.kinds, s.enumTypes⟩ : Context).Of s :=
  ⟨(declarations_verdict.of_ok h.declarations).2, rfl⟩

theorem objects_compose {name : String} {t : ObjectType}
    (ht : objects.get? name = some t) :
    (⟨d.kinds, s.enumTypes⟩ : Context).Composes s objects name t :=
  (Context.objectTypes_composes h.context_of h.built).1 name t ht

/-- The declared object types are those that are built. -/
theorem mem_names_of_declares {name : String} (hd : s.Declares name .object) :
    name ∈ d.kinds.names.filter fun name =>
      d.kinds.get? name = some .object := by
  have hk : d.kinds.get? name = some .object :=
    h.context_of.get?_eq_some_iff.2 hd
  exact List.mem_filter.2
    ⟨List.mem_map.2 ⟨_, NameMap.get?_eq_some_iff.1 hk, rfl⟩, by simpa using hk⟩

/-- A declared object type is found in the catalog. -/
theorem lookup?_of_declares {name : String} (hd : s.Declares name .object) :
    ∃ t, objects.get? name = some t ∧ c.lookup? name = some (.object t) := by
  have hk : d.kinds.get? name = some .object :=
    h.context_of.get?_eq_some_iff.2 hd
  obtain ⟨t, ht⟩ := (Context.objectTypes_composes h.context_of h.built).2 name
    (h.mem_names_of_declares hd)
  refine ⟨t, ht, ?_⟩
  rw [h.lookup?_eq, hk, Option.bind_some, typeInfo?, ht, Option.map_some]

/-- No path of inheritance goes on for ever. -/
theorem ends {name : String} (hd : s.Declares name .object) :
    Acc (Function.swap s.Extends) name :=
  ((Context.objectTypes_verdict h.context_of fun name hm =>
    h.context_of.get?_eq_some_iff.1 (by simpa using (List.mem_filter.1 hm).2)).of_ok
      h.built name (h.mem_names_of_declares hd)).ends

end Assembled

theorem exists_lookup?_of_declares (h : s.catalog = .ok c) {name : String}
    (hd : s.Declares name .object) :
    ∃ t, c.lookup? name = some (.object t) := by
  obtain ⟨d, records, objects, ha⟩ := assembled_of_catalog h
  obtain ⟨t, -, ht⟩ := ha.lookup?_of_declares hd
  exact ⟨t, ht⟩

/-- Every object type of a catalog is put together as it should. -/
theorem composed_of_catalog (h : s.catalog = .ok c) {name : String}
    {t : ObjectType} (ht : c.lookup? name = some (.object t)) :
    ∃ language d parents, d.name = name ∧
      s.Composed c t language d parents := by
  obtain ⟨declared, records, objects, ha⟩ := assembled_of_catalog h
  obtain ⟨language, d, parents, hd, hn, hs, hc⟩ :=
    ha.objects_compose (ha.get?_of_lookup? ht)
  have hnodup : ∀ {δ α : Type} (l : Listing δ α), ∀ u ∈ parents,
      ((l.all u).map l.name).Nodup := by
    intro δ α l u hu
    obtain ⟨_, -, hg⟩ := exists_of_mem_right hs hu
    obtain ⟨_, _, _, -, -, -, hu⟩ := ha.objects_compose hg
    exact l.nodup_all hu
  have hdirect : List.Forall₂ (fun name u => c.lookup? name = some (.object u))
      d.supertypes parents := by
    refine forall₂_of_forall_mem hs fun name hm u hg => ?_
    obtain ⟨u', hg', hl⟩ := ha.lookup?_of_declares
      ((valid_of_catalog h).supertypes _ _ (.intro hd hm))
    rw [hg] at hg'
    cases hg'
    exact hl
  obtain ⟨_, _, _, -, -, -, rfl⟩ := Context.complete_eq hc
  refine ⟨language, d, parents, hn, hd, rfl, hdirect, fun name => ?_,
    fun l => l.composed ha.context_of hc (hnodup l)⟩
  change name ∈ (parents.foldl Inheritance.inherit .none).supertypes ↔ _
  rw [Inheritance.mem_supertypes_foldl]
  exact or_iff_right List.not_mem_nil

end Schema

end ModelText
