import ModelText.Proofs.Metamodel.Inheritance
import ModelText.Proofs.NameSet
import Mathlib.Data.List.Lex
import Mathlib.Data.Nat.Find
import Mathlib.Order.Bounds.Basic

/-!
# In which order supertypes are listed

An object type lists each of its direct supertypes together with all that this
one lists, before it comes to the next direct supertype. So the list follows the
paths of inheritance and not their lengths: a path tells at each type on the way
which place the next one has among the direct supertypes, and a supertype stands
where the leftmost path to it stands among all paths.

The distance of a supertype is the length of a shortest path. The nearest
supertypes come first just where no farther one is to the left of a nearer one,
in particular where only the last direct supertype of each type leads on.
-/

namespace ModelText

open Relation

namespace Schema

/-! ### Paths of inheritance -/

/-- Inheritance leads from a type to another one along a path, which has for
each type on the way the place of the next one among its direct supertypes. -/
inductive LeadsAlong (s : Schema) : List Nat → String → String → Prop
  | stay (type : String) : LeadsAlong s [] type type
  | up {language : String} {d : ObjectDefinition} {place : Nat}
      {supertype target : String} {path : List Nat} :
    (language, d) ∈ s.objectDefinitions →
    d.supertypes[place]? = some supertype →
    LeadsAlong s path supertype target →
    LeadsAlong s (place :: path) d.name target

/-- How far it is from a type to another one: the length of a shortest path. -/
def Distance (s : Schema) (type target : String) (length : Nat) : Prop :=
  IsLeast {n | ∃ path, s.LeadsAlong path type target ∧ path.length = n} length

/-- From a type, it is not farther to one supertype than to another one. -/
def NoFarther (s : Schema) (type a b : String) : Prop :=
  ∀ m n, s.Distance type a m → s.Distance type b n → m ≤ n

/-- Some path to one supertype is to the left of all paths to another one. -/
def LeftOf (s : Schema) (type a b : String) : Prop :=
  ∃ path, s.LeadsAlong path type a ∧
    ∀ other, s.LeadsAlong other type b → path < other

/-- The supertypes of an object type are listed by their distance. -/
def NearestFirst (s : Schema) (t : ObjectType) : Prop :=
  t.supertypes.toList.Pairwise (s.NoFarther t.name)

/-- Up from a type, direct supertypes but the last one lead only to types that
are direct supertypes themselves. -/
def LeadsOnLast (s : Schema) (type : String) : Prop :=
  ∀ language d, (language, d) ∈ s.objectDefinitions →
    ReflTransGen s.Extends type d.name →
    ∀ supertype ∈ d.supertypes.dropLast, ∀ target,
      TransGen s.Extends supertype target → s.Extends d.name target

variable {s : Schema} {c : Catalog}

theorem LeadsOnLast.of_extends {type supertype : String}
    (h : s.LeadsOnLast type) (he : s.Extends type supertype) :
    s.LeadsOnLast supertype :=
  fun language d hd hr => h language d hd (.head he hr)

theorem exists_leadsAlong_iff {type target : String} :
    (∃ path, s.LeadsAlong path type target) ↔
      ReflTransGen s.Extends type target := by
  constructor
  · rintro ⟨path, h⟩
    induction h with
    | stay => exact .refl
    | up hd hs _ ih => exact .head (.intro hd (List.mem_of_getElem? hs)) ih
  · intro h
    induction h using ReflTransGen.head_induction_on with
    | refl => exact ⟨[], .stay _⟩
    | head he _ ih =>
      obtain ⟨path, hp⟩ := ih
      cases he with
      | intro hd hs =>
        obtain ⟨place, hs⟩ := List.mem_iff_getElem?.1 hs
        exact ⟨place :: path, .up hd hs hp⟩

theorem leadsAlong_nil {type target : String}
    (h : s.LeadsAlong [] type target) : type = target := by
  cases h
  rfl

/-- Where a path leads, a shortest one does. -/
theorem exists_distance {type target : String} {path : List Nat}
    (h : s.LeadsAlong path type target) :
    ∃ n, s.Distance type target n ∧ n ≤ path.length := by
  classical
  have hex : ∃ n, ∃ path, s.LeadsAlong path type target ∧ path.length = n :=
    ⟨_, path, h, rfl⟩
  exact ⟨Nat.find hex, ⟨Nat.find_spec hex, fun n hn => Nat.find_min' hex hn⟩,
    Nat.find_min' hex ⟨path, h, rfl⟩⟩

theorem Distance.le_length {type target : String} {n : Nat} {path : List Nat}
    (h : s.Distance type target n) (hp : s.LeadsAlong path type target) :
    n ≤ path.length :=
  h.2 ⟨path, hp, rfl⟩

theorem LeftOf.asymm {type a b : String} (h : s.LeftOf type a b) :
    ¬ s.LeftOf type b a := by
  rintro ⟨path', hb, hleft'⟩
  obtain ⟨path, ha, hleft⟩ := h
  exact lt_asymm (hleft path' hb) (hleft' path ha)

namespace Composed

variable {t : ObjectType} {language : String} {d : ObjectDefinition}
  {parents : List ObjectType}

theorem supertypes_names (h : s.catalog = .ok c)
    (hc : s.Composed c t language d parents) :
    d.supertypes = parents.map (·.name) := by
  rw [← List.map_id d.supertypes]
  exact map_eq_map_of_forall₂ hc.direct
    fun _ _ hu => ((wellFormed_catalog h).name hu).symm

/-- A path up from a type begins with one of its direct supertypes. -/
theorem leadsAlong_cons_iff (h : s.catalog = .ok c)
    (hc : s.Composed c t language d parents) {place : Nat} {path : List Nat}
    {target : String} : s.LeadsAlong (place :: path) t.name target ↔
      ∃ u, parents[place]? = some u ∧ s.LeadsAlong path u.name target := by
  have hnames := hc.supertypes_names h
  rw [hc.name]
  constructor
  · intro hp
    generalize hn : d.name = type at hp
    cases hp with
    | up hd hs hp =>
      cases definition_eq (valid_of_catalog h).types hc.defined hd hn.symm
      rw [hnames, List.getElem?_map] at hs
      obtain ⟨u, hu, rfl⟩ := Option.map_eq_some_iff.1 hs
      exact ⟨u, hu, hp⟩
  · rintro ⟨u, hu, hp⟩
    refine .up hc.defined ?_ hp
    rw [hnames, List.getElem?_map, hu]
    rfl

/-- A path to another type begins with a direct supertype from which it leads
there. -/
theorem exists_cons (h : s.catalog = .ok c)
    (hc : s.Composed c t language d parents) {path : List Nat} {target : String}
    (hp : s.LeadsAlong path t.name target) (hne : target ≠ t.name) :
    ∃ place rest u, path = place :: rest ∧ parents[place]? = some u ∧
      s.LeadsAlong rest u.name target := by
  cases path with
  | nil => exact absurd (leadsAlong_nil hp).symm hne
  | cons place rest =>
    obtain ⟨u, hu, hr⟩ := (hc.leadsAlong_cons_iff h).1 hp
    exact ⟨place, rest, u, rfl, hu, hr⟩

end Composed

end Schema

/-! ### The list -/

/-- A type and behind it its supertypes. -/
def ObjectType.lineage (t : ObjectType) : List String :=
  t.name :: t.supertypes.toList

theorem Inheritance.supertypes_foldl (types : List ObjectType)
    (i : Inheritance) : (types.foldl inherit i).supertypes =
      i.supertypes.insertAll (types.flatMap ObjectType.lineage) := by
  induction types generalizing i with
  | nil => rfl
  | cons t rest ih =>
    rw [List.foldl_cons, ih, List.flatMap_cons]
    exact List.foldl_append.symm

namespace Schema

variable {s : Schema} {c : Catalog} {name : String} {t : ObjectType}

theorem mem_lineage_iff (h : s.catalog = .ok c)
    (ht : c.lookup? name = some (.object t)) {target : String} :
    target ∈ t.lineage ↔ ∃ path, s.LeadsAlong path t.name target := by
  rw [exists_leadsAlong_iff, reflTransGen_iff_eq_or_transGen,
    ← mem_supertypes_iff h ht]
  exact List.mem_cons

theorem nodup_lineage (h : s.catalog = .ok c)
    (ht : c.lookup? name = some (.object t)) : t.lineage.Nodup := by
  refine List.nodup_cons.2 ⟨fun hm => ?_, t.supertypes.nodup⟩
  exact (valid_of_catalog h).acyclic t.name ((mem_supertypes_iff h ht).1 hm)

/-- A type is to the left of all its supertypes. -/
theorem pairwise_lineage (h : s.catalog = .ok c)
    (ht : c.lookup? name = some (.object t))
    (hl : t.supertypes.toList.Pairwise (s.LeftOf t.name)) :
    t.lineage.Pairwise (s.LeftOf t.name) := by
  refine List.pairwise_cons.2 ⟨fun b hb => ⟨[], .stay _, fun other ho => ?_⟩, hl⟩
  cases other with
  | nil =>
    cases ho
    exact absurd hb (List.nodup_cons.1 (nodup_lineage h ht)).1
  | cons place rest => exact List.nil_lt_cons place rest

namespace Composed

variable {language : String} {d : ObjectDefinition} {parents : List ObjectType}

/-- A type lists its direct supertypes, each with all that it lists. -/
theorem supertypes_eq (h : s.catalog = .ok c)
    (ht : c.lookup? name = some (.object t))
    (hc : s.Composed c t language d parents) :
    t.supertypes = .ofList (parents.flatMap ObjectType.lineage) := by
  obtain ⟨declared, records, objects, ha⟩ := assembled_of_catalog h
  obtain ⟨language', d', parents', hd, hn, hs, hcomplete⟩ :=
    ha.objects_compose (ha.get?_of_lookup? ht)
  have hname : t.name = name := (wellFormed_catalog h).name ht
  cases definition_eq (valid_of_catalog h).types hc.defined hd
    (hn.trans (hname.symm.trans hc.name))
  have hparents : parents' = parents := by
    have hone : Relator.RightUnique fun name u => objects.get? name = some u :=
      fun _ _ _ hu hu' => Option.some.inj (hu.symm.trans hu')
    exact hone.forall₂ hs (hc.direct.imp fun _ _ => ha.get?_of_lookup?)
  obtain ⟨_, _, _, -, -, -, rfl⟩ := Context.complete_eq hcomplete
  rw [← hparents]
  exact Inheritance.supertypes_foldl parents' .none

/-- A path is to the left of all paths to another type if it is to the left of
those through each direct supertype. -/
theorem leftOf_of_forall (h : s.catalog = .ok c)
    (hc : s.Composed c t language d parents) {path : List Nat} {a b : String}
    (hne : b ≠ t.name) (hp : s.LeadsAlong path t.name a)
    (hleft : ∀ place rest u, parents[place]? = some u →
      s.LeadsAlong rest u.name b → path < place :: rest) :
    s.LeftOf t.name a b := by
  refine ⟨path, hp, fun other ho => ?_⟩
  obtain ⟨place, rest, u, rfl, hu, hr⟩ := hc.exists_cons h ho hne
  exact hleft place rest u hu hr

/-- The paths to a type that the first direct supertypes do not lead to begin
behind these. -/
theorem le_place (h : s.catalog = .ok c)
    (hc : s.Composed c t language d parents) {first place : Nat}
    {rest : List Nat} {u : ObjectType} {target : String}
    (hu : parents[place]? = some u) (hp : s.LeadsAlong rest u.name target)
    (hno : target ∉ (parents.take first).flatMap ObjectType.lineage) :
    first ≤ place := by
  by_contra hlt
  have hm : u ∈ parents.take first := by
    refine List.mem_of_getElem? (i := place) ?_
    rw [List.getElem?_take_of_lt (not_le.1 hlt), hu]
  obtain ⟨_, -, hl⟩ := exists_of_mem_right hc.direct
    (List.mem_of_getElem? hu)
  exact hno (List.mem_flatMap.2 ⟨u, hm, (mem_lineage_iff h hl).2 ⟨rest, hp⟩⟩)

/-- The list of a type follows the paths if the lists of its direct supertypes
do: those before a direct supertype are reached to the left of it. -/
theorem pairwise_leftOf (h : s.catalog = .ok c)
    (ht : c.lookup? name = some (.object t))
    (hc : s.Composed c t language d parents)
    (ih : ∀ u ∈ parents, u.supertypes.toList.Pairwise (s.LeftOf u.name)) :
    t.supertypes.toList.Pairwise (s.LeftOf t.name) := by
  have hproper : ∀ {u target}, u ∈ parents → target ∈ u.lineage →
      target ≠ t.name := by
    rintro u target hu hm rfl
    refine (List.nodup_cons.1 (nodup_lineage h ht)).1 ?_
    rw [NameSet.mem_toList, hc.supertypes]
    exact ⟨u, hu, List.mem_cons.1 hm⟩
  rw [hc.supertypes_eq h ht, ← List.take_length (l := parents)]
  -- what is listed of the first direct supertypes, and then of one more
  induction parents.length with
  | zero => exact .nil
  | succ first hfirst =>
    cases hu : parents[first]? with
    | none =>
      have hlen := List.getElem?_eq_none_iff.1 hu
      rwa [List.take_of_length_le (by omega), ← List.take_of_length_le hlen]
    | some u =>
      have hm : u ∈ parents := List.mem_of_getElem? hu
      obtain ⟨_, -, hlu⟩ := exists_of_mem_right hc.direct hm
      rw [List.take_add_one, hu, Option.toList_some, List.flatMap_append,
        List.flatMap_singleton, NameSet.ofList_append,
        NameSet.toList_insertAll (nodup_lineage h hlu)]
      simp only [NameSet.mem_ofList]
      refine List.pairwise_append.2 ⟨hfirst, List.pairwise_filter.2 ?_, ?_⟩
      · refine (pairwise_lineage h hlu (ih u hm)).imp_of_mem ?_
        rintro a b - hb ⟨path, hp, hleft⟩ - hno
        refine hc.leftOf_of_forall h (hproper hm hb)
          ((hc.leadsAlong_cons_iff h).2 ⟨u, hu, hp⟩) fun place rest v hv hr => ?_
        have hle := hc.le_place h hv hr (by simpa using hno)
        rcases hle.lt_or_eq with hlt | rfl
        · exact List.cons_lt_cons_iff.2 (.inl hlt)
        · cases hu.symm.trans hv
          exact List.cons_lt_cons_iff.2 (.inr ⟨rfl, hleft rest hr⟩)
      · intro a ha b hb
        obtain ⟨hb, hno⟩ := List.mem_filter.1 hb
        obtain ⟨v, hv, ha⟩ := List.mem_flatMap.1 (NameSet.mem_ofList.1 ha)
        obtain ⟨earlier, hv⟩ := List.mem_iff_getElem?.1 hv
        rw [List.getElem?_take, Option.ite_none_right_eq_some] at hv
        obtain ⟨hlt, hv⟩ := hv
        obtain ⟨_, -, hlv⟩ := exists_of_mem_right hc.direct
          (List.mem_of_getElem? hv)
        obtain ⟨path, hp⟩ := (mem_lineage_iff h hlv).1 ha
        refine hc.leftOf_of_forall h (hproper hm hb)
          ((hc.leadsAlong_cons_iff h).2 ⟨v, hv, hp⟩) fun place rest w hw hr => ?_
        have hle := hc.le_place h hw hr (by simpa using hno)
        exact List.cons_lt_cons_iff.2 (.inl (hlt.trans_le hle))

end Composed

/-- Supertypes are listed from left to right. -/
theorem leftmost_first (h : s.catalog = .ok c)
    (ht : c.lookup? name = some (.object t)) :
    t.supertypes.toList.Pairwise (s.LeftOf t.name) := by
  refine catalog_induction h (P := fun t => c.lookup? t.name = some (.object t) →
    t.supertypes.toList.Pairwise (s.LeftOf t.name)) ?_ ht ?_
  · intro t language d parents hc ih ht
    refine hc.pairwise_leftOf h ht fun u hu => ih u hu ?_
    obtain ⟨other, -, hl⟩ := exists_of_mem_right hc.direct hu
    have hn : u.name = other := (wellFormed_catalog h).name hl
    rwa [hn]
  · have hn : t.name = name := (wellFormed_catalog h).name ht
    rwa [hn]

/-! ### Distances -/

/-- A list from left to right is one by distance just where no farther supertype
is to the left of a nearer one. -/
theorem nearestFirst_iff (hl : t.supertypes.toList.Pairwise (s.LeftOf t.name)) :
    s.NearestFirst t ↔ ∀ a ∈ t.supertypes, ∀ b ∈ t.supertypes,
      s.LeftOf t.name a b → s.NoFarther t.name a b := by
  constructor
  · intro hn a ha b hb
    have hforward : t.supertypes.toList.Pairwise fun a b =>
        s.LeftOf t.name a b → s.NoFarther t.name a b := by
      refine List.Pairwise.imp ?_ hn
      exact fun hab _ => hab
    have hback : t.supertypes.toList.Pairwise (flip fun a b =>
        s.LeftOf t.name a b → s.NoFarther t.name a b) :=
      hl.imp fun hab hba => absurd hba hab.asymm
    exact hforward.forall_of_forall_of_flip
      (fun a _ haa => absurd haa haa.asymm) hback ha hb
  · exact fun hn => hl.imp_of_mem fun ha hb hab => hn _ ha _ hb hab

/-- Paths with one place lead to direct supertypes. -/
theorem exists_leadsAlong_one_iff {type supertype : String} :
    (∃ place, s.LeadsAlong [place] type supertype) ↔
      s.Extends type supertype := by
  constructor
  · rintro ⟨place, hp⟩
    cases hp with
    | up hd hs hp =>
      cases hp
      exact .intro hd (List.mem_of_getElem? hs)
  · rintro ⟨hd, hs⟩
    obtain ⟨place, hs⟩ := List.mem_iff_getElem?.1 hs
    exact ⟨place, .up hd hs (.stay _)⟩

/-- Where only the last direct supertype leads on, all that another one leads to
is a direct supertype. -/
theorem Composed.extends_of_place_lt {language : String} {d : ObjectDefinition}
    {parents : List ObjectType} (h : s.catalog = .ok c)
    (hc : s.Composed c t language d parents) (hlast : s.LeadsOnLast t.name)
    {place later : Nat} (hlt : place < later) (hlen : later < parents.length)
    {rest : List Nat} {target : String}
    (hp : s.LeadsAlong (place :: rest) t.name target) :
    s.Extends t.name target := by
  obtain ⟨u, hu, hp⟩ := (hc.leadsAlong_cons_iff h).1 hp
  have hm : u ∈ parents := List.mem_of_getElem? hu
  rcases reflTransGen_iff_eq_or_transGen.1
    (exists_leadsAlong_iff.1 ⟨rest, hp⟩) with rfl | hr
  · exact (hc.extends_iff h).2 ⟨u, hm, rfl⟩
  · rw [hc.name]
    refine hlast language d hc.defined (hc.name ▸ .refl) u.name ?_ target hr
    have hnot : place < parents.length - 1 := by omega
    rw [hc.supertypes_names h, List.dropLast_eq_take, List.length_map]
    refine List.mem_of_getElem? (i := place) ?_
    rw [List.getElem?_take_of_lt hnot, List.getElem?_map, hu]
    rfl

/-- Where only the last direct supertypes lead on, what is to the left is no
farther. -/
theorem noFarther_of_leadsOnLast (h : s.catalog = .ok c)
    (ht : c.lookup? name = some (.object t)) :
    s.LeadsOnLast t.name → ∀ {a b}, s.LeftOf t.name a b →
      s.NoFarther t.name a b := by
  refine catalog_induction h (P := fun t => s.LeadsOnLast t.name →
    ∀ {a b}, s.LeftOf t.name a b → s.NoFarther t.name a b) ?_ ht
  rintro t language d parents hc ih hlast a b ⟨path, ha, hleft⟩ m n hm hn
  obtain ⟨other, hb, rfl⟩ := hn.1
  have hlt := hleft other hb
  -- a path to the left is empty, branches off, or begins like the other one
  cases hlt with
  | nil => exact (hm.le_length ha).trans (Nat.zero_le _)
  | @rel place rest place' rest' hplace =>
    obtain ⟨v, hv, -⟩ := (hc.leadsAlong_cons_iff h).1 hb
    have hdirect := hc.extends_of_place_lt h hlast hplace
      (List.getElem?_eq_some_iff.1 hv).1 ha
    obtain ⟨direct, hd⟩ := exists_leadsAlong_one_iff.2 hdirect
    exact (hm.le_length hd).trans (Nat.le_add_left 1 _)
  | @cons place rest rest' hrest =>
    obtain ⟨u, hu, hua⟩ := (hc.leadsAlong_cons_iff h).1 ha
    obtain ⟨v, hv, hub⟩ := (hc.leadsAlong_cons_iff h).1 hb
    cases hu.symm.trans hv
    have hum : u ∈ parents := List.mem_of_getElem? hu
    have hleft' : s.LeftOf u.name a b := ⟨rest, hua, fun next hnext => by
      have hlt := hleft (place :: next)
        ((hc.leadsAlong_cons_iff h).2 ⟨u, hu, hnext⟩)
      simpa using List.cons_lt_cons_iff.1 hlt⟩
    have hshort : s.Distance u.name b rest'.length := by
      refine ⟨⟨rest', hub, rfl⟩, ?_⟩
      rintro _ ⟨next, hnext, rfl⟩
      have hle := hn.le_length
        ((hc.leadsAlong_cons_iff h).2 ⟨u, hu, hnext⟩)
      exact Nat.le_of_succ_le_succ hle
    obtain ⟨k, hk, -⟩ := exists_distance hua
    have hle := ih u hum (hlast.of_extends ((hc.extends_iff h).2 ⟨u, hum, rfl⟩))
      hleft' k _ hk hshort
    obtain ⟨next, hnext, rfl⟩ := hk.1
    have hm' := hm.le_length ((hc.leadsAlong_cons_iff h).2 ⟨u, hu, hnext⟩)
    exact hm'.trans (Nat.succ_le_succ hle)

/-! ### The law -/

/-- In which order an object type lists its supertypes: from left to right, which
is by their distance just where no farther one is to the left of a nearer one,
and in particular where only last direct supertypes lead on. -/
structure ListsLeftmostFirst (s : Schema) (t : ObjectType) : Prop where
  leftmost : t.supertypes.toList.Pairwise (s.LeftOf t.name)
  distance : ∀ a ∈ t.supertypes, ∃ n, 0 < n ∧ s.Distance t.name a n
  nearestFirst_iff : s.NearestFirst t ↔ ∀ a ∈ t.supertypes, ∀ b ∈ t.supertypes,
    s.LeftOf t.name a b → s.NoFarther t.name a b
  nearestFirst_of_leadsOnLast : s.LeadsOnLast t.name → s.NearestFirst t

/-- In a catalog, the supertypes of an object type stand in the order of the
leftmost paths to them. -/
theorem catalog_lists_leftmost_first (h : s.catalog = .ok c)
    (ht : c.lookup? name = some (.object t)) : s.ListsLeftmostFirst t where
  leftmost := leftmost_first h ht
  distance a ha := by
    obtain ⟨path, hp⟩ := exists_leadsAlong_iff.2
      ((mem_supertypes_iff h ht).1 ha).to_reflTransGen
    obtain ⟨n, hn, -⟩ := exists_distance hp
    refine ⟨n, Nat.pos_of_ne_zero fun hzero => ?_, hn⟩
    obtain ⟨shortest, hs, hlen⟩ := hn.1
    obtain rfl := List.length_eq_zero_iff.1 (hlen.trans hzero)
    cases hs
    exact (List.nodup_cons.1 (nodup_lineage h ht)).1 ha
  nearestFirst_iff := nearestFirst_iff (leftmost_first h ht)
  nearestFirst_of_leadsOnLast hlast :=
    (leftmost_first h ht).imp (noFarther_of_leadsOnLast h ht hlast)

/-- A ball lists all that large ones are before it lists round ones. -/
theorem catalog_lists_leftmost_first_ball : ∃ c, diamond.catalog = .ok c ∧
    c.lookup? "Ball" = some (.object ball) ∧
    ball.supertypes.toList = ["Large", "Shape", "Round"] ∧
    diamond.ListsLeftmostFirst ball := by
  obtain ⟨c, hc, hl⟩ := exists_lookup?_ball
  exact ⟨c, hc, hl, by decide, catalog_lists_leftmost_first hc hl⟩

/-- So shapes come before round ones, which are nearer to a ball. -/
theorem ball_not_nearestFirst : ∃ c, diamond.catalog = .ok c ∧
    c.lookup? "Ball" = some (.object ball) ∧ ¬ diamond.NearestFirst ball := by
  obtain ⟨c, hc, hl⟩ := exists_lookup?_ball
  refine ⟨c, hc, hl, fun hn => ?_⟩
  have hball : ("shapes", shapeType "Ball" ["Large", "Round"] []) ∈
      diamond.objectDefinitions := .tail _ (.tail _ (.tail _ (.head _)))
  have hlist : ball.supertypes.toList = ["Large", "Shape", "Round"] := by
    decide
  have hshape : diamond.NoFarther "Ball" "Shape" "Round" := by
    rw [NearestFirst, hlist] at hn
    exact (List.pairwise_cons.1 (List.pairwise_cons.1 hn).2).1 "Round" (.head _)
  have hround : diamond.LeadsAlong [1] "Ball" "Round" :=
    .up hball rfl (.stay _)
  obtain ⟨n, hn, hle⟩ := exists_distance hround
  obtain ⟨path, hpath⟩ := exists_leadsAlong_iff.2
    ((mem_supertypes_iff hc hl).1
      (by decide : "Shape" ∈ ball.supertypes)).to_reflTransGen
  obtain ⟨m, hm, -⟩ := exists_distance hpath
  obtain ⟨shortest, hs, rfl⟩ := hm.1
  cases shortest with
  | nil => exact absurd (leadsAlong_nil hs) (by decide)
  | cons place rest =>
    have hrest : rest = [] := List.length_eq_zero_iff.1
      (Nat.le_zero.1 (Nat.le_of_succ_le_succ ((hshape _ n hm hn).trans hle)))
    have he : diamond.Extends (shapeType "Ball" ["Large", "Round"] []).name
        "Shape" := exists_leadsAlong_one_iff.1 ⟨place, hrest ▸ hs⟩
    rw [extends_iff (valid_of_catalog hc).types hball] at he
    exact absurd he (by decide)

end Schema

end ModelText
