import ModelText.Graph.Outline
import ModelText.Graph.Resolution
import ModelText.Proofs.Graph.Places
import Mathlib.Data.List.Nodup
import Mathlib.Data.List.Perm.Subperm
import Mathlib.Logic.Relation

/-!
# Walks through a graph

The walk outwards, the search for a name and the outline are defined with a
bound, so that they end in every graph. Here they are told without one, as
relations that follow the walk for as long as it takes: `Chain` for the holders
of an object, `Finds` and `Resolves` for a name, and `Renders` for an outline.

A walk ends where nothing leads back to itself. The objects that it has come
through are then different from each other, so there are no more of them than
the graph has, and the bounded walk gives what the unbounded one gives.
-/

namespace ModelText

/-- The object that an entry of an outline is the heading of. -/
def OutlineEntry.heading? : OutlineEntry → Option ObjectId
  | .heading object => some object
  | _ => none

namespace Object

/-- The records in the slots of an object. -/
def records (o : Object) : List ObjectId :=
  o.slots.entries.flatMap fun entry => entry.2.filterMap Value.record?

/-- The objects that an object holds, feature by feature. -/
def contents (o : Object) : List ObjectId :=
  o.compositions.entries.flatMap Prod.snd

/-- What an object owns: the records in its slots and the objects it holds. -/
def owned (o : Object) : List ObjectId := o.records ++ o.contents

theorem mem_owned_of_values {o : Object} {slot : String} {values : List Value}
    {id : ObjectId} (hs : (slot, values) ∈ o.slots.entries)
    (hv : .record id ∈ values) : id ∈ o.owned := by
  refine List.mem_append_left _ (List.mem_flatMap.2 ⟨_, hs, ?_⟩)
  exact List.mem_filterMap.2 ⟨.record id, hv, rfl⟩

theorem mem_owned_of_held {o : Object} {composition : String}
    {held : List ObjectId} {id : ObjectId}
    (hc : (composition, held) ∈ o.compositions.entries) (hm : id ∈ held) :
    id ∈ o.owned :=
  List.mem_append_right _ (List.mem_flatMap.2 ⟨_, hc, hm⟩)

/-- The lines of an object, with those of what it owns in their places. -/
def lines (o : Object) (depth : Nat) (id : ObjectId)
    (below : ObjectId → List OutlineLine) : List OutlineLine :=
  let values := o.slots.entries.flatMap fun (slot, values) =>
    values.flatMap fun
      | .record object => ⟨depth + 1, .record slot⟩ :: below object
      | value => [⟨depth + 1, .value slot value⟩]
  let targets := o.references.entries.flatMap fun (reference, objects) =>
    objects.map fun object => ⟨depth + 1, .target reference object⟩
  let blocks := o.compositions.entries.flatMap fun (composition, objects) =>
    ⟨depth + 1, .block composition⟩ :: objects.flatMap below
  ⟨depth, .heading id⟩ :: (values ++ targets ++ blocks)

/-- Only the lines of what is owned count. -/
theorem lines_congr {o : Object} {depth : Nat} {id : ObjectId}
    {below below' : ObjectId → List OutlineLine}
    (h : ∀ x ∈ o.owned, below x = below' x) :
    o.lines depth id below = o.lines depth id below' := by
  unfold lines
  dsimp only
  congr 1
  congr 1
  · congr 1
    refine List.flatMap_congr fun ⟨slot, values⟩ hs => ?_
    refine List.flatMap_congr fun value hv => ?_
    cases value with
    | record x => exact congrArg _ (h x (mem_owned_of_values hs hv))
    | _ => rfl
  · refine List.flatMap_congr fun ⟨composition, held⟩ hc => ?_
    refine congrArg _ (List.flatMap_congr fun x hx => ?_)
    exact h x (mem_owned_of_held hc hx)

end Object

namespace Graph

open Relation (TransGen ReflTransGen)

variable {g : Graph}

/-! ### Relations without rings -/

/-- Nothing leads back to itself. -/
def Acyclic (r : ObjectId → ObjectId → Prop) : Prop := ∀ id, ¬ TransGen r id id

theorem Acyclic.mono {r r' : ObjectId → ObjectId → Prop} (ha : Acyclic r')
    (h : ∀ a b, r a b → r' a b) : Acyclic r :=
  fun id hc => ha id (TransGen.mono h id id hc)

/-- What one more edge from `x` to `y` leads to. -/
theorem transGen_of_edge {r r' : ObjectId → ObjectId → Prop} {x y : ObjectId}
    (h : ∀ a b, r' a b → r a b ∨ a = x ∧ b = y) {a b : ObjectId}
    (hc : TransGen r' a b) :
    TransGen r a b ∨ ReflTransGen r a x ∧ ReflTransGen r y b := by
  induction hc with
  | single he =>
    rcases h _ _ he with he | ⟨rfl, rfl⟩
    · exact .inl (.single he)
    · exact .inr ⟨.refl, .refl⟩
  | tail _ he ih =>
    rcases h _ _ he with he | ⟨rfl, rfl⟩
    · rcases ih with ih | ⟨hx, hy⟩
      · exact .inl (ih.tail he)
      · exact .inr ⟨hx, hy.tail he⟩
    · rcases ih with ih | ⟨hx, -⟩
      · exact .inr ⟨ih.to_reflTransGen, .refl⟩
      · exact .inr ⟨hx, .refl⟩

/-- One more edge closes a ring only where its end leads to its start. -/
theorem Acyclic.of_edge {r r' : ObjectId → ObjectId → Prop} {x y : ObjectId}
    (ha : Acyclic r) (h : ∀ a b, r' a b → r a b ∨ a = x ∧ b = y)
    (hn : ¬ ReflTransGen r y x) : Acyclic r' := by
  intro id hc
  rcases transGen_of_edge h hc with hc | ⟨hx, hy⟩
  · exact ha id hc
  · exact hn (hy.trans hx)

/-- The objects that a walk has come through on its way to an object. All are in
the graph, none is met twice, and each leads on to the object. -/
structure Path (g : Graph) (r : ObjectId → ObjectId → Prop)
    (passed : List ObjectId) (id : ObjectId) : Prop where
  nodup : passed.Nodup
  there : ∀ x ∈ passed, x.index < g.size
  leads : ∀ x ∈ passed, TransGen r x id

namespace Path

variable {r : ObjectId → ObjectId → Prop} {passed : List ObjectId}
  {id next : ObjectId}

theorem nil (id : ObjectId) : g.Path r [] id :=
  ⟨List.nodup_nil, fun _ h => absurd h List.not_mem_nil,
    fun _ h => absurd h List.not_mem_nil⟩

theorem cons (h : g.Path r passed id) (ha : Acyclic r) (hi : id.index < g.size)
    (hr : r id next) : g.Path r (id :: passed) next where
  nodup := List.nodup_cons.2 ⟨fun hm => ha id (h.leads id hm), h.nodup⟩
  there x hx := by
    rcases List.mem_cons.1 hx with rfl | hx
    · exact hi
    · exact h.there x hx
  leads x hx := by
    rcases List.mem_cons.1 hx with rfl | hx
    · exact .single hr
    · exact (h.leads x hx).tail hr

/-- A walk that is still in the graph has not come through all objects. -/
theorem length_lt (h : g.Path r passed id) (ha : Acyclic r)
    (hi : id.index < g.size) : passed.length < g.size := by
  have hn : (id :: passed).Nodup :=
    List.nodup_cons.2 ⟨fun hm => ha id (h.leads id hm), h.nodup⟩
  have hs : id :: passed ⊆ g.ids := by
    intro x hx
    have hx : x.index < g.size := by
      rcases List.mem_cons.1 hx with rfl | hx
      · exact hi
      · exact h.there x hx
    exact List.mem_map.2 ⟨x.index, List.mem_range.2 hx, rfl⟩
  have hl := (List.Nodup.subperm hn hs).length_le
  simp only [List.length_cons, ids, List.length_map, List.length_range] at hl
  omega

end Path

/-! ### Holders -/

/-- An object is held by another one. -/
def HeldBy (g : Graph) (child parent : ObjectId) : Prop :=
  g.parent? child = some parent

/-- An object, its holder, and so on, up to one that nobody holds. -/
inductive Chain (g : Graph) : ObjectId → List ObjectId → Prop
  | last {id : ObjectId} : g.parent? id = none → Chain g id [id]
  | step {id parent : ObjectId} {rest : List ObjectId} :
    g.parent? id = some parent → Chain g parent rest → Chain g id (id :: rest)

theorem lt_size_of_parent? {id parent : ObjectId}
    (h : g.parent? id = some parent) : id.index < g.size := by
  obtain ⟨place, hp, -⟩ := Option.map_eq_some_iff.1 h
  obtain ⟨o, ho, -⟩ := Option.bind_eq_some_iff.1 hp
  exact lt_size_of_object? ho

theorem chain_outwards (ha : Acyclic g.HeldBy) {passed : List ObjectId}
    {id : ObjectId} {steps : Nat} (hp : g.Path g.HeldBy passed id)
    (hs : g.size ≤ passed.length + steps) : g.Chain id (g.outwards steps id) := by
  induction steps generalizing passed id with
  | zero =>
    cases hq : g.parent? id with
    | none => exact .last hq
    | some parent =>
      have := hp.length_lt ha (lt_size_of_parent? hq)
      omega
  | succ steps ih =>
    unfold outwards
    cases hq : g.parent? id with
    | none => exact .last hq
    | some parent =>
      refine .step hq (ih (hp.cons ha (lt_size_of_parent? hq) hq) ?_)
      rw [List.length_cons]
      omega

/-- The enclosing objects are the whole chain. -/
theorem chain_enclosing (ha : Acyclic g.HeldBy) (id : ObjectId) :
    g.Chain id (g.enclosing id) :=
  chain_outwards ha (.nil id) (Nat.le_add_left _ _)

theorem Chain.not_ring {id : ObjectId} {chain : List ObjectId}
    (h : g.Chain id chain) : ¬ TransGen g.HeldBy id id := by
  induction h with
  | last hn =>
    intro hc
    obtain ⟨parent, hp, -⟩ := TransGen.head'_iff.1 hc
    rw [HeldBy, hn] at hp
    cases hp
  | step hs _ ih =>
    intro hc
    obtain ⟨parent, hp, hr⟩ := TransGen.head'_iff.1 hc
    cases hp.symm.trans hs
    exact ih (.tail' hr hp)

/-- Every walk outwards ends just when no object holds itself in a roundabout
way. -/
theorem chains_iff_acyclic :
    (∀ id, ∃ chain, g.Chain id chain) ↔ Acyclic g.HeldBy :=
  ⟨fun h id => (h id).elim fun _ => Chain.not_ring,
    fun ha id => ⟨_, chain_enclosing ha id⟩⟩

namespace Chain

variable {id : ObjectId} {chain : List ObjectId}

/-- Behind an object its chain leads outwards. -/
theorem leads (h : g.Chain id chain) :
    ∀ x ∈ chain, ReflTransGen g.HeldBy id x := by
  induction h with
  | last =>
    intro x hx
    rw [List.mem_singleton.1 hx]
  | step hp _ ih =>
    intro x hx
    rcases List.mem_cons.1 hx with rfl | hx
    · exact .refl
    · exact .head hp (ih x hx)

theorem nodup (h : g.Chain id chain) : chain.Nodup := by
  induction h with
  | last => exact List.nodup_singleton _
  | step hp hc ih =>
    refine List.nodup_cons.2 ⟨fun hm => ?_, ih⟩
    exact (step hp hc).not_ring (.head' hp (hc.leads _ hm))

/-- All objects of a chain are there, but perhaps the last one. -/
theorem lt_size (h : g.Chain id chain) :
    ∀ x ∈ chain.dropLast, x.index < g.size := by
  induction h with
  | last => exact fun x hx => absurd hx List.not_mem_nil
  | step hp hc ih =>
    intro x hx
    rw [List.dropLast_cons_of_ne_nil (by cases hc <;> exact nofun)] at hx
    rcases List.mem_cons.1 hx with rfl | hx
    · exact lt_size_of_parent? hp
    · exact ih x hx

theorem length_le (h : g.Chain id chain) : chain.length ≤ g.size + 1 := by
  have hs : chain.dropLast ⊆ g.ids := by
    intro x hx
    exact List.mem_map.2 ⟨x.index, List.mem_range.2 (h.lt_size x hx), rfl⟩
  have hn := h.nodup.sublist (List.dropLast_sublist chain)
  have hl := (List.Nodup.subperm hn hs).length_le
  simp only [List.length_dropLast, ids, List.length_map, List.length_range] at hl
  omega

theorem outwards_eq (h : g.Chain id chain) {steps : Nat}
    (hs : chain.length ≤ steps + 1) : g.outwards steps id = chain := by
  induction h generalizing steps with
  | last hp =>
    cases steps with
    | zero => rfl
    | succ steps => rw [outwards, hp]
  | step hp hc ih =>
    rw [List.length_cons] at hs
    cases steps with
    | zero => cases hc <;> simp at hs
    | succ steps =>
      rw [outwards, hp]
      exact congrArg _ (ih (by omega))

/-- The bounded walk outwards goes through the chain. -/
theorem enclosing_eq (h : g.Chain id chain) : g.enclosing id = chain :=
  h.outwards_eq h.length_le

end Chain

/-! ### Names -/

/-- The search for the first name of a path: it looks at an object and at what
that holds, then goes on with its holder, and behind the last one it looks at
the roots. -/
inductive Finds (g : Graph) (name : String) : ObjectId → Option ObjectId → Prop
  | self {id : ObjectId} : g.name? id = some name → Finds g name id (some id)
  | child {id child : ObjectId} : g.name? id ≠ some name →
    g.childNamed? id name = some child → Finds g name id (some child)
  | outwards {id parent : ObjectId} {found : Option ObjectId} :
    g.name? id ≠ some name → g.childNamed? id name = none →
    g.parent? id = some parent → Finds g name parent found →
    Finds g name id found
  | roots {id : ObjectId} : g.name? id ≠ some name →
    g.childNamed? id name = none → g.parent? id = none →
    Finds g name id (g.roots.find? fun root => g.name? root = some name)

/-- What a path means when it is read from an object. -/
inductive Resolves (g : Graph) (scope : ObjectId) :
    List String → Option ObjectId → Prop
  | nil : Resolves g scope [] none
  | cons {first : String} {rest : List String} {found : Option ObjectId} :
    g.Finds first scope found →
    Resolves g scope (first :: rest)
      (found.bind fun id => rest.foldlM g.childNamed? id)

theorem Finds.unique {name : String} {id : ObjectId}
    {found found' : Option ObjectId} (h : g.Finds name id found)
    (h' : g.Finds name id found') : found = found' := by
  induction h with
  | self hn => cases h' <;> first | rfl | contradiction
  | child hn hc =>
    cases h' with
    | self hn' => contradiction
    | child _ hc' => exact hc.symm.trans hc'
    | outwards _ hc' => cases hc.symm.trans hc'
    | roots _ hc' => cases hc.symm.trans hc'
  | outwards hn hc hp _ ih =>
    cases h' with
    | self hn' => contradiction
    | child _ hc' => cases hc.symm.trans hc'
    | outwards _ _ hp' hf =>
      cases hp.symm.trans hp'
      exact ih hf
    | roots _ _ hp' => cases hp.symm.trans hp'
  | roots hn hc hp =>
    cases h' with
    | self hn' => contradiction
    | child _ hc' => cases hc.symm.trans hc'
    | outwards _ _ hp' => cases hp.symm.trans hp'
    | roots => rfl

/-- The search at one object: what it looks at behind that object counts only
where the name is not found here. -/
theorem finds_here {name : String} {id : ObjectId} {behind : List ObjectId}
    (h : g.name? id ≠ some name → g.childNamed? id name = none →
      g.Finds name id (behind.find? fun id => g.name? id = some name)) :
    g.Finds name id ((id :: (g.children id ++ behind)).find? fun id =>
      g.name? id = some name) := by
  by_cases hn : g.name? id = some name
  · rw [List.find?_cons_of_pos (by simpa using hn)]
    exact .self hn
  · rw [List.find?_cons_of_neg (by simpa using hn), List.find?_append]
    cases hc : g.childNamed? id name with
    | some child =>
      rw [show (g.children id).find? _ = some child from hc]
      exact .child hn hc
    | none =>
      rw [show (g.children id).find? _ = none from hc]
      exact h hn hc

/-- Along a chain the search comes to its end. -/
theorem Chain.finds {id : ObjectId} {chain : List ObjectId}
    (h : g.Chain id chain) (name : String) :
    g.Finds name id ((chain.flatMap (fun id => id :: g.children id) ++
      g.roots).find? fun id => g.name? id = some name) := by
  induction h with
  | @last id hp =>
    rw [List.flatMap_singleton]
    exact finds_here fun hn hc => .roots hn hc hp
  | @step id parent rest hp _ ih =>
    rw [List.flatMap_cons, List.append_assoc]
    exact finds_here fun hn hc => .outwards hn hc hp ih

/-- A search for a name that no object has ends only where the walk outwards
does. -/
theorem Finds.exists_chain {name : String} {id : ObjectId}
    {found : Option ObjectId} (h : g.Finds name id found)
    (hn : ∀ id, g.name? id ≠ some name) : ∃ chain, g.Chain id chain := by
  induction h with
  | self hs => exact absurd hs (hn _)
  | child _ hc =>
    have := List.find?_some hc
    exact absurd (of_decide_eq_true this) (hn _)
  | outwards _ _ hp _ ih =>
    obtain ⟨chain, hc⟩ := ih
    exact ⟨_, .step hp hc⟩
  | roots _ _ hp => exact ⟨_, .last hp⟩

/-- Where a chain ends, so does the search along it, with what the bounded search
gives. -/
theorem Chain.resolves_iff {scope : ObjectId} {chain : List ObjectId}
    (h : g.Chain scope chain) (path : List String) (found : Option ObjectId) :
    g.Resolves scope path found ↔ found = g.resolve? scope path := by
  cases path with
  | nil =>
    constructor
    · rintro ⟨⟩
      rfl
    · rintro rfl
      exact .nil
  | cons first rest =>
    have hf := h.finds first
    rw [← h.enclosing_eq] at hf
    constructor
    · rintro ⟨⟩
      next hx => rw [hx.unique hf]; rfl
    · rintro rfl
      exact .cons hf

/-- Where nothing holds itself, every search ends, with what the bounded search
gives. -/
theorem resolves_iff (ha : Acyclic g.HeldBy) (scope : ObjectId)
    (path : List String) (found : Option ObjectId) :
    g.Resolves scope path found ↔ found = g.resolve? scope path :=
  (chain_enclosing ha scope).resolves_iff path found

/-! ### Outlines -/

/-- What an object owns. -/
def owned (g : Graph) (id : ObjectId) : List ObjectId :=
  ((g.object? id).map Object.owned).getD []

/-- An object owns another one. -/
def Owns (g : Graph) (owner id : ObjectId) : Prop := id ∈ g.owned owner

theorem owns_iff {owner id : ObjectId} :
    g.Owns owner id ↔ ∃ o, g.object? owner = some o ∧ id ∈ o.owned := by
  unfold Owns owned
  cases g.object? owner with
  | none => simp
  | some o => simp

/-- The writing of an outline: a line for the object, then its values, its
references and what it holds, everything it owns being written in full in its
place. An object that is not there is written as nothing. -/
inductive Renders (g : Graph) : Nat → ObjectId → List OutlineLine → Prop
  | missing {depth : Nat} {id : ObjectId} : g.object? id = none →
    Renders g depth id []
  | object {depth : Nat} {id : ObjectId} {o : Object}
      {below : ObjectId → List OutlineLine} : g.object? id = some o →
    (∀ x ∈ o.owned, Renders g (depth + 2) x (below x)) →
    Renders g depth id (o.lines depth id below)

theorem outlineTo_succ (g : Graph) (levels depth : Nat) (id : ObjectId) :
    g.outlineTo (levels + 1) depth id =
      match g.object? id with
      | none => []
      | some o => o.lines depth id (g.outlineTo levels (depth + 2)) := by
  rw [outlineTo]
  cases g.object? id <;> rfl

theorem renders_outlineTo (ha : Acyclic g.Owns) {passed : List ObjectId}
    {levels depth : Nat} {id : ObjectId} (hp : g.Path g.Owns passed id)
    (hl : g.size ≤ passed.length + levels) :
    g.Renders depth id (g.outlineTo levels depth id) := by
  induction levels generalizing passed depth id with
  | zero =>
    refine .missing (object?_eq_none_iff.2 (Nat.le_of_not_lt fun hi => ?_))
    have := hp.length_lt ha hi
    omega
  | succ levels ih =>
    rw [outlineTo_succ]
    cases ho : g.object? id with
    | none => exact .missing ho
    | some o =>
      refine .object ho fun x hx => ih (hp.cons ha (lt_size_of_object? ho) ?_) ?_
      · exact owns_iff.2 ⟨o, ho, hx⟩
      · rw [List.length_cons]
        omega

/-- The outline is written in full. -/
theorem renders_outline (ha : Acyclic g.Owns) (id : ObjectId) :
    g.Renders 0 id (g.outline id) :=
  renders_outlineTo ha (.nil id) (Nat.le_add_left _ _)

theorem Renders.unique {depth : Nat} {id : ObjectId}
    {lines lines' : List OutlineLine} (h : g.Renders depth id lines)
    (h' : g.Renders depth id lines') : lines = lines' := by
  induction h generalizing lines' with
  | missing hn =>
    cases h' with
    | missing => rfl
    | object ho => cases hn.symm.trans ho
  | object ho _ ih =>
    cases h' with
    | missing hn => cases hn.symm.trans ho
    | object ho' hb =>
      cases ho.symm.trans ho'
      exact Object.lines_congr fun x hx => ih x hx (hb x hx)

theorem Renders.not_ring {depth : Nat} {id : ObjectId}
    {lines : List OutlineLine} (h : g.Renders depth id lines) :
    ¬ TransGen g.Owns id id := by
  induction h with
  | missing hn =>
    intro hc
    obtain ⟨x, hx, -⟩ := TransGen.head'_iff.1 hc
    obtain ⟨o, ho, -⟩ := owns_iff.1 hx
    cases hn.symm.trans ho
  | object ho _ ih =>
    intro hc
    obtain ⟨x, hx, hr⟩ := TransGen.head'_iff.1 hc
    obtain ⟨o, ho', hm⟩ := owns_iff.1 hx
    cases ho.symm.trans ho'
    exact ih x hm (.tail' hr hx)

/-- Every outline comes to its end just when no object owns itself in a
roundabout way. -/
theorem renders_iff_acyclic :
    (∀ id, ∃ lines, g.Renders 0 id lines) ↔ Acyclic g.Owns :=
  ⟨fun h id => (h id).elim fun _ => Renders.not_ring,
    fun ha id => ⟨_, renders_outline ha id⟩⟩

/-! ### What an outline shows -/

/-- The objects that lines of an outline are headings of. -/
def headings (lines : List OutlineLine) : List ObjectId :=
  lines.filterMap fun line => line.entry.heading?

theorem headings_append (lines lines' : List OutlineLine) :
    headings (lines ++ lines') = headings lines ++ headings lines' :=
  List.filterMap_append

theorem headings_flatMap {α : Type} (list : List α)
    (f : α → List OutlineLine) :
    headings (list.flatMap f) = list.flatMap fun x => headings (f x) := by
  induction list with
  | nil => rfl
  | cons x rest ih =>
    rw [List.flatMap_cons, List.flatMap_cons, headings_append, ih]

/-- Beside the object itself, what it owns has headings, in order. -/
theorem headings_lines (o : Object) (depth : Nat) (id : ObjectId)
    (below : ObjectId → List OutlineLine) :
    headings (o.lines depth id below) =
      id :: o.owned.flatMap fun x => headings (below x) := by
  have hv : ∀ values : List Value, ∀ slot, headings (values.flatMap fun
      | .record object => ⟨depth + 1, .record slot⟩ :: below object
      | value => [⟨depth + 1, .value slot value⟩]) =
        (values.filterMap Value.record?).flatMap fun x => headings (below x) := by
    intro values slot
    induction values with
    | nil => rfl
    | cons value rest ih =>
      rw [List.flatMap_cons, headings_append, ih]
      cases value <;> rfl
  have ht : ∀ (reference : String) (objects : List ObjectId),
      headings (objects.map fun object =>
        ⟨depth + 1, .target reference object⟩) = [] := by
    intro reference objects
    induction objects with
    | nil => rfl
    | cons x rest ih => exact ih
  have hb : ∀ (composition : String) (objects : List ObjectId),
      headings (⟨depth + 1, .block composition⟩ :: objects.flatMap below) =
        objects.flatMap fun x => headings (below x) :=
    fun _ objects => headings_flatMap objects below
  change id :: headings (_ ++ _ ++ _) = _
  rw [headings_append, headings_append, headings_flatMap, headings_flatMap,
    headings_flatMap]
  rw [Object.owned, Object.records, Object.contents, List.flatMap_append,
    List.flatMap_assoc, List.flatMap_assoc]
  simp only [hv, ht, hb, List.flatMap_eq_nil_iff.2 fun _ _ => rfl,
    List.append_nil]

end Graph

end ModelText
