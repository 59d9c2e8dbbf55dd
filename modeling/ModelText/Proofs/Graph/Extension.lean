import ModelText.Proofs.Graph.Append
import ModelText.Proofs.Graph.Ownership
import Mathlib.Data.List.Find

/-!
# Graphs that grow behind their objects

A graph extends another one if it has the objects of that, unchanged, and its
roots before any others. A forest mentions its own objects only, so the search
for a name from one of its objects goes through the same places in the larger
graph, in the same order; only when it has come through all of them without
success does it meet objects that are new. What was found is found again.
-/

namespace ModelText.Graph

/-- The second graph has the objects of the first one and begins with its
roots. -/
structure Extends (g h : Graph) : Prop where
  objects : ∀ id, id.index < g.size → h.object? id = g.object? id
  roots : ∃ more, h.roots = g.roots ++ more

namespace Extends

variable {g h k : Graph} {id : ObjectId}

theorem refl (g : Graph) : g.Extends g := ⟨fun _ _ => rfl, [], by simp⟩

theorem lt_size (he : g.Extends h) (hi : id.index < g.size) :
    id.index < h.size := by
  obtain ⟨o, ho⟩ := object?_eq_some_of_lt hi
  exact lt_size_of_object? ((he.objects id hi).trans ho)

theorem trans (hg : g.Extends h) (hh : h.Extends k) : g.Extends k where
  objects id hi := (hh.objects id (hg.lt_size hi)).trans (hg.objects id hi)
  roots := by
    obtain ⟨more, hm⟩ := hg.roots
    obtain ⟨further, hf⟩ := hh.roots
    exact ⟨more ++ further, by rw [hf, hm, List.append_assoc]⟩

theorem append (g k : Graph) : g.Extends (g.append k) where
  objects _ hi := object?_append_of_lt g k hi
  roots := ⟨_, rfl⟩

variable (he : g.Extends h) (hi : id.index < g.size)

include he hi

theorem name? : h.name? id = g.name? id := by
  unfold Graph.name?
  rw [he.objects id hi]

theorem parent? : h.parent? id = g.parent? id := by
  unfold Graph.parent?
  rw [he.objects id hi]

theorem children : h.children id = g.children id := by
  unfold Graph.children
  rw [he.objects id hi]

end Extends

/-! ### Where a search leads -/

theorem lt_size_of_name? {g : Graph} {id : ObjectId} {name : String}
    (hn : g.name? id = some name) : id.index < g.size := by
  obtain ⟨o, ho, -⟩ := Option.bind_eq_some_iff.1 hn
  exact lt_size_of_object? ho

/-- The object that is found has the name. -/
theorem Finds.name? {g : Graph} {name : String} {id target : ObjectId}
    (h : g.Finds name id (some target)) : g.name? target = some name := by
  generalize hx : some target = found at h
  induction h with
  | self hn =>
    cases hx
    exact hn
  | child _ hc =>
    cases hx
    have hn := List.find?_some hc
    exact of_decide_eq_true hn
  | outwards _ _ _ _ ih => exact ih hx
  | roots =>
    have hn := List.find?_some hx.symm
    exact of_decide_eq_true hn

namespace Forest

variable {g h : Graph} {id : ObjectId} {name : String}

section

variable (hg : g.Forest)

include hg

theorem index_lt_of_parent? {parent : ObjectId}
    (hp : g.parent? id = some parent) : parent.index < id.index := by
  refine hg.order ?_
  unfold Owns
  rw [owned_eq]
  exact List.mem_append_right _ (hg.holder.1 hp)

theorem lt_size_of_mem_children {child : ObjectId} (hc : child ∈ g.children id) :
    child.index < g.size := by
  obtain ⟨type, ht⟩ := hg.contents ((hg.children id).mem_iff.1 hc)
  exact lt_size_of_type? ht

theorem lt_size_of_mem_roots {root : ObjectId} (hr : root ∈ g.roots) :
    root.index < g.size := by
  obtain ⟨type, ht⟩ := hg.roots root hr
  exact lt_size_of_type? ht

end

variable (hg : g.Forest) (he : g.Extends h)

include hg he

/-- Below an object the names are those that there were. -/
theorem childNamed?_extends (hi : id.index < g.size) (name : String) :
    h.childNamed? id name = g.childNamed? id name := by
  unfold childNamed?
  rw [he.children hi]
  exact List.find?_congr fun child hc => by
    rw [he.name? (hg.lt_size_of_mem_children hc)]

/-- A root that was found is found before all new ones. -/
theorem root?_extends (name : String)
    (hs : (g.roots.find? fun root => g.name? root = some name).isSome) :
    (h.roots.find? fun root => h.name? root = some name) =
      g.roots.find? fun root => g.name? root = some name := by
  obtain ⟨more, hm⟩ := he.roots
  obtain ⟨found, hf⟩ := Option.isSome_iff_exists.1 hs
  have hsame : (g.roots.find? fun root => h.name? root = some name) =
      g.roots.find? fun root => g.name? root = some name :=
    List.find?_congr fun root hr => by
      rw [he.name? (hg.lt_size_of_mem_roots hr)]
  rw [hm, List.find?_append, hsame, hf]
  rfl

/-- The search that was successful comes to the same object. -/
theorem finds_extends {found : Option ObjectId} (hf : g.Finds name id found)
    (hi : id.index < g.size) (hs : found.isSome) : h.Finds name id found := by
  induction hf with
  | self hn =>
    refine .self ?_
    rw [he.name? hi]
    exact hn
  | child hn hc =>
    refine .child ?_ ?_
    · rw [he.name? hi]
      exact hn
    · rw [hg.childNamed?_extends he hi]
      exact hc
  | outwards hn hc hp _ ih =>
    refine .outwards ?_ ?_ ?_ (ih ?_ hs)
    · rw [he.name? hi]
      exact hn
    · rw [hg.childNamed?_extends he hi]
      exact hc
    · rw [he.parent? hi]
      exact hp
    · exact Nat.lt_trans (hg.index_lt_of_parent? hp) hi
  | roots hn hc hp =>
    -- The new roots are behind the one that was found.
    rw [← hg.root?_extends he name hs]
    refine .roots ?_ ?_ ?_
    · rw [he.name? hi]
      exact hn
    · rw [hg.childNamed?_extends he hi]
      exact hc
    · rw [he.parent? hi]
      exact hp

/-- Names lead downwards to where they led. -/
theorem descend_extends {path : List String} {target : ObjectId}
    (hi : id.index < g.size) (hd : path.foldlM g.childNamed? id = some target) :
    path.foldlM h.childNamed? id = some target := by
  induction path generalizing id with
  | nil => exact hd
  | cons name rest ih =>
    rw [List.foldlM_cons] at hd ⊢
    obtain ⟨child, hc, hd⟩ := Option.bind_eq_some_iff.1 hd
    rw [hg.childNamed?_extends he hi, hc]
    exact ih (hg.lt_size_of_mem_children (List.mem_of_find?_eq_some hc)) hd

/-- **A path that leads to an object leads there in every extension.** -/
theorem resolve?_extends (ha : Acyclic h.HeldBy) {scope target : ObjectId}
    (hi : scope.index < g.size) {path : List String}
    (hr : g.resolve? scope path = some target) :
    h.resolve? scope path = some target := by
  have hx := (resolves_iff hg.acyclic_heldBy scope path (some target)).2 hr.symm
  refine ((resolves_iff ha scope path (some target)).1 ?_).symm
  cases path with
  | nil => cases hr
  | cons first rest =>
    generalize hs : some target = result at hx
    cases hx with
    | cons hf =>
      obtain ⟨start, rfl, hd⟩ := Option.bind_eq_some_iff.1 hs.symm
      have hlt : start.index < g.size := lt_size_of_name? hf.name?
      have hd := hg.descend_extends he hlt hd
      rw [← hs, ← hd]
      exact .cons (hg.finds_extends he hf hi rfl)

end Forest

end ModelText.Graph
