import ModelText.Proofs.Graph.Isomorphism
import ModelText.Proofs.Graph.Walks

/-!
# Graphs that differ in references only

Links change what objects refer to, and nothing else. Looking for an object by
its name does not read references, so it gives the same in graphs that differ in
references only.
-/

namespace ModelText

/-- The object without what it refers to. -/
def Object.bare (o : Object) : Object := { o with references := .empty }

namespace Graph

/-- The graphs are the same but for what their objects refer to. -/
structure SameButReferences (g h : Graph) : Prop where
  size : h.size = g.size
  roots : h.roots = g.roots
  objects : ∀ id,
    (h.object? id).map Object.bare = (g.object? id).map Object.bare

/-- A change of references only. -/
theorem sameButReferences_update (g : Graph) (id : ObjectId)
    {f : Object → Object} (hf : ∀ o, (f o).bare = o.bare) :
    g.SameButReferences (g.update id f) where
  size := size_update g id f
  roots := rfl
  objects := read_update (F := Option.map Object.bare) fun o =>
    congrArg some (hf o)

namespace SameButReferences

variable {g h k : Graph}

theorem refl (g : Graph) : g.SameButReferences g := ⟨rfl, rfl, fun _ => rfl⟩

theorem trans (hg : g.SameButReferences h) (hh : h.SameButReferences k) :
    g.SameButReferences k where
  size := hh.size.trans hg.size
  roots := hh.roots.trans hg.roots
  objects id := (hh.objects id).trans (hg.objects id)

theorem symm (hg : g.SameButReferences h) : h.SameButReferences g where
  size := hg.size.symm
  roots := hg.roots.symm
  objects id := (hg.objects id).symm

variable (hs : g.SameButReferences h)

include hs

/-- What does not read references gives the same. -/
theorem read {β : Type} {F : Option Object → β}
    (hF : ∀ o : Object, F (some o.bare) = F (some o)) (id : ObjectId) :
    F (h.object? id) = F (g.object? id) := by
  have hbare : ∀ o : Option Object, F (o.map Object.bare) = F o := by
    rintro (_ | o)
    · rfl
    · exact hF o
  rw [← hbare, hs.objects, hbare]

theorem type? (id : ObjectId) : h.type? id = g.type? id :=
  hs.read (F := Option.map Object.type) (fun _ => rfl) id

theorem name? (id : ObjectId) : h.name? id = g.name? id :=
  hs.read (F := fun o => o.bind Object.name) (fun _ => rfl) id

theorem parent? (id : ObjectId) : h.parent? id = g.parent? id :=
  hs.read (F := fun o => (o.bind Object.place).map Place.holder)
    (fun _ => rfl) id

theorem children (id : ObjectId) : h.children id = g.children id :=
  hs.read (F := fun o => (o.map Object.children).getD []) (fun _ => rfl) id

theorem childrenOf (id : ObjectId) (feature : String) :
    h.childrenOf id feature = g.childrenOf id feature :=
  hs.read (F := fun o => (o.map fun x => Object.held x feature).getD [])
    (fun _ => rfl) id

theorem alike : Alike (fun id => id) g h where
  size := hs.size
  name? := hs.name?
  parent? id := by
    rw [Option.map_id_fun']
    exact hs.parent? id
  children id := by
    rw [List.map_id_fun']
    exact hs.children id
  root? name := by
    rw [Option.map_id_fun', hs.roots]
    simp only [hs.name?]
    rfl

/-- A path leads where it led. -/
theorem resolve? (scope : ObjectId) (path : List String) :
    h.resolve? scope path = g.resolve? scope path := by
  have ha := hs.alike.resolve? scope path
  rwa [Option.map_id_fun'] at ha

end SameButReferences

end Graph

end ModelText
