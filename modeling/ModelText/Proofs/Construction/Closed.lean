import ModelText.Proofs.Construction.UnitMoves
import ModelText.Proofs.Graph.Closed

/-!
# Building mentions objects that are there

A session is closed when its graph mentions only its own objects and the links
that wait start at them. While units are built no object refers to another one:
that is what the links wait for. Both hold of the empty session, and every move
of building keeps them.
-/

namespace ModelText

/-- The session mentions only its own objects, and none of them refers to
another one. -/
structure Session.Closed (s : Session) : Prop where
  graph : s.graph.Closed
  unlinked : s.graph.Unlinked
  requests : ∀ r ∈ s.requests, r.scope.index < s.graph.size

namespace Graph

variable {m : Metamodel} {g h : Graph}

theorem Fits.within {slot : Slot} {value : Value} (hf : g.Fits m slot value) :
    value.Within g.size := by
  intro f f' ha
  cases value with
  | record object =>
    unfold Fits at hf
    cases hl : m.lookup? slot.type with
    | none =>
      rw [hl] at hf
      exact hf.elim
    | some type =>
      rw [hl] at hf
      cases type with
      | record type => exact congrArg Value.record (ha object (lt_size_of_type? hf))
      | primitive type =>
        obtain ⟨name, kind⟩ := type
        cases kind <;> exact hf.elim
      | enumerated type => exact hf.elim
      | object type => exact hf.elim
  | _ => rfl

theorem Move.closed (hm : g.Move m h) (hg : g.Closed) : h.Closed := by
  cases hm with
  | create type isRoot _ => exact hg.instantiate type isRoot
  | name hm =>
    rw [setName_eq_ok hm]
    exact hg.update fun o ho => ho.setName _
  | assign _ _ hf hm =>
    rw [setValue_eq_ok hm]
    exact hg.update fun o ho => ho.assign _ hf.within
  | hold ht _ hm =>
    obtain ⟨⟨holder, held, hh⟩, rfl⟩ := addChild_eq_ok hm
    refine (hg.update fun o ho => ?_).update fun o ho => ho.setPlace ?_
    · exact ho.hold _ (lt_size_of_object? hh.child)
    · rw [size_update]
      exact lt_size_of_type? ht

theorem Move.unlinked (hm : g.Move m h) (hg : g.Unlinked) : h.Unlinked := by
  cases hm with
  | create type isRoot _ => exact hg.instantiate type isRoot
  | name hm =>
    rw [setName_eq_ok hm]
    refine hg.update ?_
    exact fun _ => rfl
  | assign _ _ _ hm =>
    rw [setValue_eq_ok hm]
    refine hg.update ?_
    exact fun _ => rfl
  | hold _ _ hm =>
    rw [(addChild_eq_ok hm).2]
    refine (hg.update ?_).update ?_
    · exact fun _ => rfl
    · exact fun _ => rfl

theorem Move.size_le (hm : g.Move m h) : g.size ≤ h.size := by
  cases hm with
  | create type isRoot _ =>
    rw [size_instantiate]
    exact Nat.le_succ _
  | name hm =>
    refine Nat.le_of_eq ?_
    rw [setName_eq_ok hm, size_update]
  | assign _ _ _ hm =>
    refine Nat.le_of_eq ?_
    rw [setValue_eq_ok hm, size_update]
  | hold _ _ hm =>
    refine Nat.le_of_eq ?_
    rw [(addChild_eq_ok hm).2, size_update, size_update]

end Graph

namespace Session

variable {m : Metamodel} {source : String} {s t : Session}

theorem closed_empty : empty.Closed where
  graph := Graph.closed_empty
  unlinked := Graph.unlinked_empty
  requests _ h := by cases h

theorem Moves.closed (h : s.Moves m source t) (hs : s.Closed) : t.Closed := by
  induction h with
  | refl => exact hs
  | tail _ hm ih =>
    cases hm with
    | graph hm =>
      exact ⟨hm.closed ih.graph, hm.unlinked ih.unlinked, fun r hr =>
        Nat.lt_of_lt_of_le (ih.requests r hr) hm.size_le⟩
    | report => exact ⟨ih.graph, ih.unlinked, ih.requests⟩
    | defer r _ ht _ =>
      refine ⟨ih.graph, ih.unlinked, fun other ho => ?_⟩
      rcases List.mem_append.1 ho with ho | ho
      · exact ih.requests other ho
      · rw [List.mem_singleton.1 ho]
        exact Graph.lt_size_of_type? ht

end Session

end ModelText
