import ModelText.Graph.Outline
import ModelText.Proofs.Graph.Isomorphism

/-!
# Outlines do not show numbers

The outline of an object shows types, names, values and the way objects lie
inside each other. Numbers are shown for one purpose only, to refer to an object
without a name, and links lead to objects by their names. So an object and its
image in an isomorphic graph have the same outline in writing.
-/

namespace ModelText.Graph

/-- References lead to objects that have names. -/
def TargetsNamed (g : Graph) : Prop :=
  ∀ id o, g.object? id = some o → ∀ reference targets,
    o.references.get? reference = some targets →
    ∀ target ∈ targets, ∃ name, g.name? target = some name

theorem lineText_eq {g h : Graph} (depth : Nat) {entry entry' : OutlineEntry}
    (he : h.entryText entry = g.entryText entry') :
    h.lineText ⟨depth, entry⟩ = g.lineText ⟨depth, entry'⟩ := by
  unfold lineText
  rw [he]

namespace Iso

variable {ρ : ObjectId → ObjectId} {g h : Graph} (hi : Iso ρ g h)

include hi

theorem heading (id : ObjectId) : h.heading (ρ id) = g.heading id := by
  unfold Graph.heading
  rw [hi.objects]
  cases g.object? id <;> rfl

theorem label {id : ObjectId} {name : String} (hn : g.name? id = some name) :
    h.label (ρ id) = g.label id := by
  unfold Graph.label
  rw [hi.name?, hn]
  rfl

theorem outlineTo (ht : g.TargetsNamed) (levels depth : Nat) (id : ObjectId) :
    (h.outlineTo levels depth (ρ id)).map h.lineText =
      (g.outlineTo levels depth id).map g.lineText := by
  induction levels generalizing depth id with
  | zero => rfl
  | succ levels ih =>
    unfold Graph.outlineTo
    rw [hi.objects]
    cases ho : g.object? id with
    | none => rfl
    | some o =>
      have hx : h.entryText (.heading (ρ id)) = g.entryText (.heading id) :=
        hi.heading id
      rw [Option.map_some]
      dsimp only
      simp only [List.map_cons, List.map_append]
      rw [lineText_eq depth hx]
      congr 1
      congr 1
      · congr 1
        · refine o.slots.map_flatMap_entries fun slot values _ => ?_
          dsimp only
          rw [List.flatMap_map, List.map_flatMap, List.map_flatMap]
          refine List.flatMap_congr fun value _ => ?_
          cases value with
          | record object =>
            have he : h.entryText (.record slot) = g.entryText (.record slot) :=
              rfl
            simp only [Value.rename, List.map_cons]
            rw [lineText_eq _ he, ih]
          | _ =>
            refine congrArg ([·]) (lineText_eq _ ?_)
            rfl
        · refine o.references.map_flatMap_entries fun reference targets he => ?_
          dsimp only
          rw [List.map_map, List.map_map, List.map_map]
          refine List.map_congr_left fun target hm => ?_
          obtain ⟨name, hn⟩ := ht id o ho reference targets
            (NameMap.get?_eq_some_iff.2 he) target hm
          have he : h.entryText (.target reference (ρ target)) =
              g.entryText (.target reference target) :=
            congrArg (reference ++ " -> " ++ ·) (hi.label hn)
          exact lineText_eq _ he
      · refine o.compositions.map_flatMap_entries fun composition held _ => ?_
        have he : h.entryText (.block composition) =
            g.entryText (.block composition) := rfl
        simp only [List.map_cons]
        rw [lineText_eq _ he, List.flatMap_map, List.map_flatMap,
          List.map_flatMap]
        congr 1
        exact List.flatMap_congr fun child _ => ih _ child

theorem outlineText (ht : g.TargetsNamed) (id : ObjectId) :
    h.outlineText (ρ id) = g.outlineText id := by
  have hx := congrArg (List.map fun line => line ++ "\n")
    (hi.outlineTo ht g.size 0 id)
  rw [List.map_map, List.map_map] at hx
  unfold Graph.outlineText Graph.outline
  rw [hi.size]
  exact congrArg String.join hx

end Iso

end ModelText.Graph
