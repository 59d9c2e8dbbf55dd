import ModelText.Proofs.Graph.Owned

/-!
# Runs of changes

Any changes, one after the other, from the empty graph. A change that breaks a
rule leaves the graph as it is.

Nothing keeps an object from being attached to itself or to one that it
encloses: an attachment asks whether the child is held already, and the outermost
object of a chain is not. From such an attachment on, the walk outwards goes
round for ever, and so do a search for a name that is not on the ring and the
writing of an outline. Only an attachment can close a ring of holders, and a
ring that is closed stays; so the walks end behind a run just when none of its
attachments closed one. The same is asked of the records in slots where the
outlines are to end.
-/

namespace ModelText.Graph

open Relation (TransGen ReflTransGen)

/-- A change of a graph with what it is given. -/
inductive Operation where
  | instantiate (type : StructuredType) (isRoot : Bool)
  | setName (object : ObjectId) (name : String)
  | setValue (slot : Slot) (object : ObjectId) (value : Value)
  | link (reference : Feature) (source target : ObjectId)
  | addChild (composition : Feature) (parent child : ObjectId)

namespace Operation

/-- The graph behind a change, or the rule that the change would break. -/
def apply (g : Graph) : Operation → Except Error Graph
  | .instantiate type isRoot => .ok (g.instantiate type isRoot).2
  | .setName object name => g.setName object name
  | .setValue slot object value => g.setValue slot object value
  | .link reference source target => g.link reference source target
  | .addChild composition parent child => g.addChild composition parent child

/-- Behind the change, the first object is held by the second one. -/
inductive Attaches : Operation → ObjectId → ObjectId → Prop
  | intro {composition : Feature} {parent child : ObjectId} :
    Attaches (.addChild composition parent child) child parent

/-- Behind the change, the first object owns the second one. -/
inductive Gives : Operation → ObjectId → ObjectId → Prop
  | child {composition : Feature} {parent child : ObjectId} :
    Gives (.addChild composition parent child) parent child
  | record {slot : Slot} {object record : ObjectId} :
    Gives (.setValue slot object (.record record)) object record

end Operation

/-- Makes a change, unless it breaks a rule. -/
def step (g : Graph) (op : Operation) : Graph :=
  match op.apply g with
  | .ok h => h
  | .error _ => g

/-- Makes changes one after the other. -/
def run (g : Graph) (ops : List Operation) : Graph := ops.foldl step g

/-- A change that succeeds attaches an object to itself or to one that it
encloses. -/
def ClosesRing (g : Graph) (op : Operation) : Prop :=
  ∃ child parent h, op.Attaches child parent ∧ op.apply g = .ok h ∧
    ReflTransGen g.HeldBy parent child

/-- A change that succeeds gives an object to itself or to one that it owns,
directly or not. -/
def ClosesLoop (g : Graph) (op : Operation) : Prop :=
  ∃ owner id h, op.Gives owner id ∧ op.apply g = .ok h ∧
    ReflTransGen g.Owns id owner

/-- At no point of a run, the next change is one of these. -/
def Never (P : Graph → Operation → Prop) : Graph → List Operation → Prop
  | _, [] => True
  | g, op :: rest => ¬ P g op ∧ Never P (g.step op) rest

variable {g h : Graph} {op : Operation}

/-! ### One change -/

theorem heldBy_iff {child parent : ObjectId} :
    g.HeldBy child parent ↔ (g.place? child).map (·.holder) = some parent :=
  Iff.rfl

theorem heldBy_update {id : ObjectId} {f : Object → Object}
    (hf : ∀ o, (f o).place = o.place) (child parent : ObjectId) :
    (g.update id f).HeldBy child parent ↔ g.HeldBy child parent := by
  rw [heldBy_iff, heldBy_iff, place?_update hf]

theorem place?_instantiate (g : Graph) (type : StructuredType) (isRoot : Bool)
    (id : ObjectId) : (g.instantiate type isRoot).2.place? id = g.place? id :=
  read_instantiate (F := fun o => o.bind Object.place) rfl isRoot id

/-- Holders change by attachments alone, which add to them. -/
theorem heldBy_apply (hm : op.apply g = .ok h) (child parent : ObjectId) :
    h.HeldBy child parent ↔ g.HeldBy child parent ∨ op.Attaches child parent := by
  cases op with
  | instantiate type isRoot =>
    cases hm
    rw [heldBy_iff, heldBy_iff, place?_instantiate]
    exact ⟨.inl, fun hh => hh.elim id nofun⟩
  | setName object name =>
    rw [setName_eq_ok hm, heldBy_update]
    · exact ⟨.inl, fun hh => hh.elim id nofun⟩
    · exact fun _ => rfl
  | setValue slot object value =>
    rw [setValue_eq_ok hm, heldBy_update]
    · exact ⟨.inl, fun hh => hh.elim id nofun⟩
    · exact fun _ => rfl
  | link reference source target =>
    rw [(link_eq_ok hm).2, heldBy_update]
    · exact ⟨.inl, fun hh => hh.elim id nofun⟩
    · exact fun _ => rfl
  | addChild composition holder held =>
    obtain ⟨hfree, hplace⟩ := place?_addChild hm child
    rw [heldBy_iff, heldBy_iff, hplace]
    by_cases hc : child = held
    · subst hc
      rw [if_pos rfl, hfree]
      constructor
      · intro hh
        cases hh
        exact .inr .intro
      · intro hh
        rcases hh with hh | hh
        · cases hh
        · cases hh
          rfl
    · rw [if_neg hc]
      refine ⟨.inl, fun hh => hh.elim id fun hh => ?_⟩
      cases hh
      exact absurd rfl hc

/-- What an object owns grows by what it is given. -/
theorem owns_apply (hm : op.apply g = .ok h) {owner id : ObjectId}
    (hh : h.Owns owner id) : g.Owns owner id ∨ op.Gives owner id := by
  unfold Owns at hh ⊢
  cases op with
  | instantiate type isRoot =>
    cases hm
    rw [owned_instantiate] at hh
    exact .inl hh
  | setName object name =>
    rw [setName_eq_ok hm, owned_update] at hh
    · exact .inl hh
    · exact fun _ => rfl
    · exact fun _ => rfl
  | setValue slot object value =>
    rcases owns_setValue hm hh with ⟨rfl, rfl⟩ | hg
    · exact .inr .record
    · exact .inl hg
  | link reference source target =>
    rw [(link_eq_ok hm).2, owned_update] at hh
    · exact .inl hh
    · exact fun _ => rfl
    · exact fun _ => rfl
  | addChild composition parent child =>
    rcases owns_addChild hm hh with ⟨rfl, rfl⟩ | hg
    · exact .inr .child
    · exact .inl hg

/-- A change closes a ring of holders, or leaves rings and their absence as they
were. -/
theorem acyclic_heldBy_step :
    Acyclic (g.step op).HeldBy ↔ Acyclic g.HeldBy ∧ ¬ g.ClosesRing op := by
  unfold step
  cases hm : op.apply g with
  | error e =>
    refine ⟨fun ha => ⟨ha, ?_⟩, fun ha => ha.1⟩
    rintro ⟨child, parent, h, -, hx, -⟩
    rw [hm] at hx
    cases hx
  | ok h =>
    have hh := heldBy_apply hm
    constructor
    · intro ha
      refine ⟨ha.mono fun a b hab => (hh a b).2 (.inl hab), ?_⟩
      rintro ⟨child, parent, -, hop, -, hr⟩
      refine ha child (TransGen.head' ((hh child parent).2 (.inr hop)) ?_)
      exact ReflTransGen.mono (fun a b hab => (hh a b).2 (.inl hab)) _ _ hr
    · rintro ⟨ha, hn⟩
      by_cases hop : ∃ child parent, op.Attaches child parent
      · obtain ⟨child, parent, hop⟩ := hop
        refine ha.of_edge (fun a b hab => ?_)
          fun hr => hn ⟨child, parent, h, hop, hm, hr⟩
        rcases (hh a b).1 hab with hab | hab
        · exact .inl hab
        · cases hop
          cases hab
          exact .inr ⟨rfl, rfl⟩
      · refine ha.mono fun a b hab => ((hh a b).1 hab).resolve_right ?_
        exact fun hab => hop ⟨a, b, hab⟩

theorem acyclic_owns_step (ha : Acyclic g.Owns) (hn : ¬ g.ClosesLoop op) :
    Acyclic (g.step op).Owns := by
  unfold step
  cases hm : op.apply g with
  | error e => exact ha
  | ok h =>
    by_cases hop : ∃ owner id, op.Gives owner id
    · obtain ⟨owner, id, hop⟩ := hop
      refine ha.of_edge (fun a b hab => ?_)
        fun hr => hn ⟨owner, id, h, hop, hm, hr⟩
      rcases owns_apply hm hab with hab | hab
      · exact .inl hab
      · cases hop <;> cases hab <;> exact .inr ⟨rfl, rfl⟩
    · refine ha.mono fun a b hab => (owns_apply hm hab).resolve_right ?_
      exact fun hab => hop ⟨a, b, hab⟩

/-! ### Runs -/

theorem acyclic_heldBy_run (g : Graph) (ops : List Operation) :
    Acyclic (g.run ops).HeldBy ↔ Acyclic g.HeldBy ∧ Never ClosesRing g ops := by
  induction ops generalizing g with
  | nil => exact ⟨fun h => ⟨h, trivial⟩, And.left⟩
  | cons op rest ih =>
    change Acyclic ((g.step op).run rest).HeldBy ↔ _
    rw [ih, acyclic_heldBy_step, and_assoc]
    rfl

theorem acyclic_owns_run (g : Graph) {ops : List Operation}
    (ha : Acyclic g.Owns) (hn : Never ClosesLoop g ops) :
    Acyclic (g.run ops).Owns := by
  induction ops generalizing g with
  | nil => exact ha
  | cons op rest ih => exact ih _ (acyclic_owns_step ha hn.1) hn.2

theorem acyclic_heldBy_empty : Acyclic empty.HeldBy := by
  intro id hc
  obtain ⟨_, hp, -⟩ := TransGen.head'_iff.1 hc
  cases hp

theorem acyclic_owns_empty : Acyclic empty.Owns := by
  intro id hc
  obtain ⟨_, hp, -⟩ := TransGen.head'_iff.1 hc
  cases hp

/-- Behind a run from the empty graph, the walk outwards ends from every object
just when no attachment of the run has closed a ring. Then each search by name
ends too, with what the bounded search gives; and where no object was given to
itself in a roundabout way, each outline comes to its end. -/
theorem run_walks_end (ops : List Operation) :
    ((∀ id, ∃ chain, (empty.run ops).Chain id chain) ↔
        Never ClosesRing empty ops) ∧
      (Never ClosesRing empty ops → ∀ scope path found,
        (empty.run ops).Resolves scope path found ↔
          found = (empty.run ops).resolve? scope path) ∧
      (Never ClosesLoop empty ops → ∀ id lines,
        (empty.run ops).Renders 0 id lines ↔
          lines = (empty.run ops).outline id) := by
  have hh := acyclic_heldBy_run empty ops
  refine ⟨?_, fun hn => ?_, fun hn id lines => ?_⟩
  · rw [chains_iff_acyclic, hh]
    exact and_iff_right acyclic_heldBy_empty
  · exact resolves_iff (hh.2 ⟨acyclic_heldBy_empty, hn⟩)
  · have hr := renders_outline (acyclic_owns_run _ acyclic_owns_empty hn) id
    exact ⟨fun h => h.unique hr, fun h => h ▸ hr⟩

/-- A node attached to itself is its own holder. The walk outwards from it does
not end, nor does the search for a name that it does not have, nor its
outline. -/
theorem run_ring :
    let nodes : Feature := ⟨"nodes", "Node", false, true⟩
    let type : StructuredType :=
      .object ⟨"Node", "Trees", false, true, .empty, [], [nodes], []⟩
    let g := empty.run [.instantiate type true, .addChild nodes ⟨0⟩ ⟨0⟩]
    g.parent? ⟨0⟩ = some ⟨0⟩ ∧ (¬ ∃ chain, g.Chain ⟨0⟩ chain) ∧
      (¬ ∃ found, g.Resolves ⟨0⟩ ["a"] found) ∧
      ¬ ∃ lines, g.Renders 0 ⟨0⟩ lines := by
  intro nodes type g
  have hp : g.parent? ⟨0⟩ = some ⟨0⟩ := by decide +kernel
  have hc : ¬ ∃ chain, g.Chain ⟨0⟩ chain := fun ⟨_, h⟩ => h.not_ring (.single hp)
  refine ⟨hp, hc, ?_, ?_⟩
  · rintro ⟨found, hr⟩
    cases hr with
    | cons hf =>
      refine hc (hf.exists_chain fun ⟨i⟩ hn => ?_)
      obtain ⟨o, ho, -⟩ := Option.bind_eq_some_iff.1 hn
      have hi : i < 1 := lt_size_of_object? ho
      have hi : i = 0 := by omega
      have hn' : g.name? ⟨0⟩ = none := by decide +kernel
      rw [hi, hn'] at hn
      cases hn
  · rintro ⟨lines, hr⟩
    refine hr.not_ring (.single ?_)
    change _ ∈ _
    decide +kernel

end ModelText.Graph
