import ModelText.Graph.Resolution
import ModelText.Proofs.Graph.Changes
import ModelText.Proofs.Graph.Places
import ModelText.Proofs.Graph.Renaming
import Mathlib.Data.List.Nodup

/-!
# Graphs that differ in numbers only

`g.Iso ρ h` says that `ρ` takes the objects of `g` to those of `h`, which are
the same but for the numbers of the objects they mention. The roots may stand in
another order.

Finding an object by its name looks at the names of objects, at what holds them
and what they hold, and at the roots. Where the first root of each name is the
same, as it is if no two roots have the same name, isomorphic graphs find the
same objects.
-/

namespace ModelText

/-- In lists with the same items, of which only one is looked for, the same one
is found. -/
theorem find?_eq_of_perm {α : Type} {p : α → Bool} {list list' : List α}
    (h : list.Perm list')
    (hu : ∀ a ∈ list, ∀ b ∈ list, p a = true → p b = true → a = b) :
    list.find? p = list'.find? p := by
  cases hf : list.find? p with
  | none =>
    symm
    rw [List.find?_eq_none] at hf ⊢
    intro x hx
    exact hf x (h.mem_iff.2 hx)
  | some a =>
    have ha := List.mem_of_find?_eq_some hf
    have hp := List.find?_some hf
    cases hf' : list'.find? p with
    | none =>
      rw [List.find?_eq_none] at hf'
      exact absurd hp (hf' a (h.mem_iff.1 ha))
    | some b =>
      have hb := h.mem_iff.2 (List.mem_of_find?_eq_some hf')
      rw [hu a ha b hb hp (List.find?_some hf')]

namespace Graph

/-- The objects of `h` are those of `g` under other numbers. -/
structure Iso (ρ : ObjectId → ObjectId) (g h : Graph) : Prop where
  injective : Function.Injective ρ
  size : h.size = g.size
  fixed : ∀ id, g.size ≤ id.index → ρ id = id
  objects : ∀ id, h.object? (ρ id) = (g.object? id).map (Object.rename ρ)
  roots : h.roots.Perm (g.roots.map ρ)

namespace Iso

variable {ρ ρ' : ObjectId → ObjectId} {g h k : Graph}

theorem refl (g : Graph) : Iso id g g where
  injective := Function.injective_id
  size := rfl
  fixed _ _ := rfl
  objects id := by
    cases ho : g.object? id with
    | none => exact ho
    | some o => exact ho.trans (congrArg some o.rename_id.symm)
  roots := by rw [List.map_id]

theorem trans (hi : Iso ρ g h) (hi' : Iso ρ' h k) : Iso (ρ' ∘ ρ) g k where
  injective := hi'.injective.comp hi.injective
  size := hi'.size.trans hi.size
  fixed id hid := by
    have hid' : h.size ≤ id.index := by
      rw [hi.size]
      exact hid
    rw [Function.comp_apply, hi.fixed id hid, hi'.fixed id hid']
  objects id := by
    rw [Function.comp_apply, hi'.objects, hi.objects, Option.map_map]
    congr 1
    funext o
    exact o.rename_rename ρ ρ'
  roots := by
    have hr := hi.roots.map ρ'
    rw [List.map_map] at hr
    exact hi'.roots.trans hr

variable (hi : Iso ρ g h)

include hi

theorem update (id : ObjectId) {f f' : Object → Object}
    (hf : ∀ o : Object, f' (o.rename ρ) = (f o).rename ρ) :
    Iso ρ (g.update id f) (h.update (ρ id) f') where
  injective := hi.injective
  size := by rw [size_update, size_update, hi.size]
  fixed other ho := by
    rw [size_update] at ho
    exact hi.fixed other ho
  objects other := by
    rw [object?_update, object?_update]
    by_cases ho : other = id
    · rw [if_pos ho, if_pos (congrArg ρ ho), hi.objects, Option.map_map,
        Option.map_map]
      congr 1
      funext o
      exact hf o
    · rw [if_neg ho, if_neg fun hr => ho (hi.injective hr)]
      exact hi.objects other
  roots := hi.roots

theorem type? (id : ObjectId) : h.type? (ρ id) = g.type? id := by
  unfold Graph.type?
  rw [hi.objects, Option.map_map]
  rfl

theorem name? (id : ObjectId) : h.name? (ρ id) = g.name? id := by
  unfold Graph.name?
  rw [hi.objects]
  cases g.object? id <;> rfl

theorem parent? (id : ObjectId) : h.parent? (ρ id) = (g.parent? id).map ρ := by
  unfold Graph.parent?
  rw [hi.objects]
  cases g.object? id with
  | none => rfl
  | some o =>
    change ((o.place.map (Place.rename ρ)).map _) = (o.place.map _).map ρ
    cases o.place <;> rfl

theorem children (id : ObjectId) :
    h.children (ρ id) = (g.children id).map ρ := by
  unfold Graph.children
  rw [hi.objects]
  cases g.object? id <;> rfl

end Iso

/-- No two roots have the same name. -/
def RootsApart (g : Graph) : Prop :=
  ∀ a ∈ g.roots, ∀ b ∈ g.roots, ∀ name,
    g.name? a = some name → g.name? b = some name → a = b

theorem rootsApart_of_nodup {g : Graph} (h : (g.roots.map g.name?).Nodup) :
    g.RootsApart := by
  intro a ha b hb name hna hnb
  exact List.inj_on_of_nodup_map h ha hb (hna.trans hnb.symm)

/-! ### Finding objects -/

/-- The objects of `h` are found like those of `g`. -/
structure Alike (ρ : ObjectId → ObjectId) (g h : Graph) : Prop where
  size : h.size = g.size
  name? : ∀ id, h.name? (ρ id) = g.name? id
  parent? : ∀ id, h.parent? (ρ id) = (g.parent? id).map ρ
  children : ∀ id, h.children (ρ id) = (g.children id).map ρ
  root? : ∀ name, h.roots.find? (fun id => h.name? id = some name) =
    (g.roots.find? fun id => g.name? id = some name).map ρ

theorem Iso.alike {ρ : ObjectId → ObjectId} {g h : Graph} (hi : Iso ρ g h)
    (hr : g.RootsApart) : Alike ρ g h where
  size := hi.size
  name? := hi.name?
  parent? := hi.parent?
  children := hi.children
  root? name := by
    rw [find?_eq_of_perm hi.roots, List.find?_map]
    · congr 2
      funext id
      simp [hi.name?]
    · intro a ha b hb hna hnb
      obtain ⟨a', ha', rfl⟩ := List.mem_map.1 (hi.roots.mem_iff.1 ha)
      obtain ⟨b', hb', rfl⟩ := List.mem_map.1 (hi.roots.mem_iff.1 hb)
      rw [hi.name?, decide_eq_true_iff] at hna hnb
      rw [hr a' ha' b' hb' name hna hnb]

/-- Changes that leave names, places and children alone do not matter. -/
theorem alike_update (g : Graph) (id : ObjectId) {f : Object → Object}
    (hn : ∀ o, (f o).name = o.name) (hp : ∀ o, (f o).place = o.place)
    (hc : ∀ o, (f o).children = o.children) :
    Alike (fun id => id) g (g.update id f) := by
  have hname : ∀ other, (g.update id f).name? other = g.name? other :=
    read_update (F := fun o => o.bind Object.name) hn
  have hholder : ∀ other, (g.update id f).parent? other = g.parent? other :=
    read_update (F := fun o => (o.bind Object.place).map Place.holder)
      fun o => congrArg (Option.map Place.holder) (hp o)
  have hchildren : ∀ other, (g.update id f).children other = g.children other :=
    read_update (F := fun o => (o.map Object.children).getD []) hc
  refine ⟨size_update _ _ _, hname, fun other => ?_, fun other => ?_,
    fun name => ?_⟩
  · rw [Option.map_id_fun']
    exact hholder other
  · rw [List.map_id_fun']
    exact hchildren other
  · rw [roots_update, Option.map_id_fun']
    simp only [hname]
    rfl

namespace Alike

variable {ρ : ObjectId → ObjectId} {g h : Graph} (ha : Alike ρ g h)

include ha

theorem find? (list : List ObjectId) (name : String) :
    (list.map ρ).find? (fun id => h.name? id = some name) =
      (list.find? fun id => g.name? id = some name).map ρ := by
  rw [List.find?_map]
  congr 2
  funext id
  simp [ha.name?]

theorem childNamed? (id : ObjectId) (name : String) :
    h.childNamed? (ρ id) name = (g.childNamed? id name).map ρ := by
  unfold Graph.childNamed?
  rw [ha.children]
  exact ha.find? _ name

theorem descend (names : List String) (id : ObjectId) :
    names.foldlM h.childNamed? (ρ id) =
      (names.foldlM g.childNamed? id).map ρ := by
  induction names generalizing id with
  | nil => rfl
  | cons name rest ih =>
    rw [List.foldlM_cons, List.foldlM_cons, ha.childNamed?]
    cases g.childNamed? id name with
    | none => rfl
    | some child => exact ih child

theorem outwards (steps : Nat) (id : ObjectId) :
    h.outwards steps (ρ id) = (g.outwards steps id).map ρ := by
  induction steps generalizing id with
  | zero => rfl
  | succ steps ih =>
    unfold Graph.outwards
    rw [ha.parent?]
    cases g.parent? id with
    | none => rfl
    | some parent => exact congrArg (ρ id :: ·) (ih parent)

theorem candidate? (scope : ObjectId) (name : String) :
    (h.candidates (ρ scope)).find? (fun id => h.name? id = some name) =
      ((g.candidates scope).find? fun id => g.name? id = some name).map ρ := by
  have hs : (h.enclosing (ρ scope)).flatMap (fun id => id :: h.children id) =
      ((g.enclosing scope).flatMap fun id => id :: g.children id).map ρ := by
    unfold enclosing
    rw [ha.size, ha.outwards, List.flatMap_map, List.map_flatMap]
    congr 1
    funext id
    rw [ha.children, List.map_cons]
  unfold candidates
  rw [hs, List.find?_append, List.find?_append, ha.find?, ha.root?]
  cases ((g.enclosing scope).flatMap fun id => id :: g.children id).find?
    fun id => g.name? id = some name <;> rfl

/-- The same path leads to the same object. -/
theorem resolve? (scope : ObjectId) (path : List String) :
    h.resolve? (ρ scope) path = (g.resolve? scope path).map ρ := by
  cases path with
  | nil => rfl
  | cons first rest =>
    change ((h.candidates (ρ scope)).find? _).bind _ =
      (((g.candidates scope).find? _).bind _).map ρ
    rw [ha.candidate?]
    cases (g.candidates scope).find? fun id => g.name? id = some first with
    | none => rfl
    | some found => exact ha.descend rest found

end Alike

/-- What a path leads to has a name. -/
theorem name?_of_resolve? {g : Graph} {scope target : ObjectId}
    {path : List String} (h : g.resolve? scope path = some target) :
    ∃ name, g.name? target = some name := by
  have hd : ∀ (names : List String) (id : ObjectId),
      (∃ name, g.name? id = some name) →
      names.foldlM g.childNamed? id = some target →
      ∃ name, g.name? target = some name := by
    intro names
    induction names with
    | nil =>
      intro id hid hf
      cases hf
      exact hid
    | cons name rest ih =>
      intro id _ hf
      rw [List.foldlM_cons] at hf
      obtain ⟨child, hc, hf⟩ := Option.bind_eq_some_iff.1 hf
      have hn := List.find?_some hc
      exact ih child ⟨name, of_decide_eq_true hn⟩ hf
  cases path with
  | nil => cases h
  | cons first rest =>
    obtain ⟨found, hf, h⟩ := Option.bind_eq_some_iff.1 h
    have hn := List.find?_some hf
    exact hd rest found ⟨first, of_decide_eq_true hn⟩ h

end Graph

end ModelText
