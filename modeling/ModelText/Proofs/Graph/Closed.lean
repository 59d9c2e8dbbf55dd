import ModelText.Proofs.Graph.Changes
import ModelText.Proofs.Graph.Places
import ModelText.Proofs.Graph.Renaming

/-!
# Graphs that mention their own objects only

An object lies within a number when all it mentions has a lower one. What this
is good for is taken as its definition: renamings that agree below the number do
the same to the object. A graph is closed when its objects and its roots lie
within its size; the changes of a graph keep it closed, for they mention objects
that are there.
-/

namespace ModelText

/-- Two renamings agree on the objects with a number below `n`. -/
def AgreeBelow (n : Nat) (f g : ObjectId → ObjectId) : Prop :=
  ∀ id : ObjectId, id.index < n → f id = g id

/-- All that the value mentions has a number below `n`. -/
def Value.Within (n : Nat) (v : Value) : Prop :=
  ∀ f g, AgreeBelow n f g → v.rename f = v.rename g

/-- All that the object mentions has a number below `n`. -/
def Object.Within (n : Nat) (o : Object) : Prop :=
  ∀ f g, AgreeBelow n f g → o.rename f = o.rename g

namespace Object

variable {n : Nat} {o : Object}

theorem Within.mono {n' : Nat} (h : o.Within n) (hn : n ≤ n') : o.Within n' :=
  fun f g hf => h f g fun id hi => hf id (Nat.lt_of_lt_of_le hi hn)

theorem within_new (n : Nat) (type : StructuredType) :
    (new type).Within n := fun _ _ _ => rfl

theorem Within.setName (h : o.Within n) (name : String) :
    ({ o with name := some name } : Object).Within n := by
  intro f g hf
  have hr := h f g hf
  have hx : ∀ f : ObjectId → ObjectId,
      ({ o with name := some name } : Object).rename f =
        { o.rename f with name := some name } := fun _ => rfl
  rw [hx, hx, hr]

theorem Within.setPlace (h : o.Within n) {place : Place}
    (hp : place.holder.index < n) :
    ({ o with place := some place } : Object).Within n := by
  intro f g hf
  have hr := h f g hf
  have hx : ∀ f : ObjectId → ObjectId,
      ({ o with place := some place } : Object).rename f =
        { o.rename f with place := some ⟨f place.holder, place.feature⟩ } :=
    fun _ => rfl
  rw [hx, hx, hr, hf _ hp]

theorem Within.assign (h : o.Within n) (slot : Slot) {value : Value}
    (hv : value.Within n) : (o.assign slot value).Within n := by
  intro f g hf
  rw [← o.assign_rename, ← o.assign_rename, h f g hf, hv f g hf]

theorem Within.hold (h : o.Within n) (composition : String) {child : ObjectId}
    (hc : child.index < n) : (o.hold composition child).Within n := by
  intro f g hf
  rw [← o.hold_rename, ← o.hold_rename, h f g hf, hf child hc]

end Object

namespace Graph

/-- The graph mentions only its own objects. -/
structure Closed (g : Graph) : Prop where
  objects : ∀ id o, g.object? id = some o → o.Within g.size
  roots : ∀ id ∈ g.roots, id.index < g.size

/-- Nothing refers to anything yet. -/
def Unlinked (g : Graph) : Prop :=
  ∀ id o, g.object? id = some o → o.references = .empty

theorem closed_empty : empty.Closed where
  objects _ _ h := by cases h
  roots _ h := by cases h

theorem unlinked_empty : empty.Unlinked := fun _ _ h => by cases h

theorem lt_size_of_type? {g : Graph} {id : ObjectId} {type : StructuredType}
    (h : g.type? id = some type) : id.index < g.size := by
  obtain ⟨o, ho, -⟩ := Option.map_eq_some_iff.1 h
  exact lt_size_of_object? ho

variable {g : Graph}

theorem Closed.instantiate (h : g.Closed) (type : StructuredType)
    (isRoot : Bool) : (g.instantiate type isRoot).2.Closed where
  objects id o ho := by
    rw [object?_instantiate] at ho
    rw [size_instantiate]
    split at ho
    · cases ho
      exact Object.within_new _ type
    · exact (h.objects id o ho).mono (Nat.le_succ _)
  roots id hid := by
    rw [size_instantiate]
    cases isRoot with
    | false => exact Nat.lt_succ_of_lt (h.roots id hid)
    | true =>
      rcases List.mem_append.1 hid with hid | hid
      · exact Nat.lt_succ_of_lt (h.roots id hid)
      · rw [List.mem_singleton.1 hid]
        exact Nat.lt_succ_self _

theorem Unlinked.instantiate (h : g.Unlinked) (type : StructuredType)
    (isRoot : Bool) : (g.instantiate type isRoot).2.Unlinked := by
  intro id o ho
  rw [object?_instantiate] at ho
  split at ho
  · cases ho
    rfl
  · exact h id o ho

theorem Closed.update (h : g.Closed) {id : ObjectId} {f : Object → Object}
    (hf : ∀ o, o.Within g.size → (f o).Within g.size) :
    (g.update id f).Closed where
  objects other o ho := by
    rw [size_update]
    rcases object?_update_eq_some ho with ho | ⟨o', hid, rfl⟩
    · exact h.objects other o ho
    · exact hf o' (h.objects id o' hid)
  roots other ho := by
    rw [size_update]
    exact h.roots other ho

theorem Unlinked.update (h : g.Unlinked) {id : ObjectId} {f : Object → Object}
    (hf : ∀ o, (f o).references = o.references) :
    (g.update id f).Unlinked := by
  intro other o ho
  rcases object?_update_eq_some ho with ho | ⟨o', hid, rfl⟩
  · exact h other o ho
  · rw [hf]
    exact h id o' hid

end Graph

end ModelText
