import ModelText.Construction.Session
import ModelText.Proofs.NameMap

/-!
# Renaming objects

The number of an object only serves to find it, so objects can be renamed. A
renaming goes through everything that mentions objects: record values, places,
what an object holds and refers to, and the links that wait. Types, names and
values of other kinds stay. The changes of a single object commute with it.
-/

namespace ModelText

variable (f : ObjectId → ObjectId)

/-- Renames the object of a record. -/
def Value.rename : Value → Value
  | .record object => .record (f object)
  | value => value

/-- Renames the object that holds. -/
def Place.rename (p : Place) : Place := { p with holder := f p.holder }

/-- Renames all that an object mentions. -/
def Object.rename (o : Object) : Object where
  type := o.type
  name := o.name
  place := o.place.map (Place.rename f)
  slots := o.slots.map (List.map (Value.rename f))
  compositions := o.compositions.map (List.map f)
  references := o.references.map (List.map f)
  children := o.children.map f

/-- Renames the element of a link. -/
def LinkRequest.rename (r : LinkRequest) : LinkRequest :=
  { r with scope := f r.scope }

namespace Object

@[simp] theorem type_rename (o : Object) : (o.rename f).type = o.type := rfl

@[simp] theorem name_rename (o : Object) : (o.rename f).name = o.name := rfl

@[simp] theorem rename_new (type : StructuredType) :
    (new type).rename f = new type := rfl

@[simp] theorem rename_id (o : Object) : o.rename id = o := by
  have hv : Value.rename id = id := by
    funext value
    cases value <;> rfl
  have hp : Place.rename id = id := rfl
  have hm : ∀ (α : Type) (m : NameMap (List α)), m.map (List.map id) = m := by
    intro α m
    apply NameMap.ext
    simp [NameMap.map]
  unfold rename
  rw [hv, hp, hm, hm, hm, Option.map_id_fun, List.map_id]
  rfl

theorem rename_rename (g : ObjectId → ObjectId) (o : Object) :
    (o.rename f).rename g = o.rename (g ∘ f) := by
  have hv : Value.rename g ∘ Value.rename f = Value.rename (g ∘ f) := by
    funext value
    cases value <;> rfl
  have hp : Place.rename g ∘ Place.rename f = Place.rename (g ∘ f) := rfl
  have hm : ∀ (α : Type) (h k : α → α) (m : NameMap (List α)),
      (m.map (List.map h)).map (List.map k) = m.map (List.map (k ∘ h)) := by
    intro α h k m
    rw [NameMap.map_map]
    exact NameMap.map_congr fun _ _ => List.map_map
  unfold rename
  rw [Option.map_map, hp, hm, hv, hm, hm, List.map_map]

theorem held_rename (o : Object) (composition : String) :
    (o.rename f).held composition = (o.held composition).map f := by
  rw [held, rename, NameMap.get?_map, held]
  cases o.compositions.get? composition <;> rfl

theorem targets_rename (o : Object) (reference : String) :
    (o.rename f).targets reference = (o.targets reference).map f := by
  rw [targets, rename, NameMap.get?_map, targets]
  cases o.references.get? reference <;> rfl

theorem assign_rename (o : Object) (slot : Slot) (value : Value) :
    (o.rename f).assign slot (value.rename f) =
      (o.assign slot value).rename f := by
  unfold assign rename
  congr 1
  apply NameMap.update_map
  rintro (_ | values) <;> cases slot.many <;> simp

theorem refer_rename (o : Object) (reference : String) (target : ObjectId) :
    (o.rename f).refer reference (f target) =
      (o.refer reference target).rename f := by
  unfold refer rename
  congr 1
  apply NameMap.update_map
  rintro (_ | targets) <;> simp

theorem hold_rename (o : Object) (composition : String) (child : ObjectId) :
    (o.rename f).hold composition (f child) =
      (o.hold composition child).rename f := by
  unfold hold rename
  congr 1
  · apply NameMap.update_map
    rintro (_ | held) <;> simp
  · simp

end Object

end ModelText
