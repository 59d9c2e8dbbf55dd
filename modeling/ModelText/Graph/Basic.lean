import ModelText.Metamodel.Types
import ModelText.NameMap

/-!
# Object graphs

A `Graph` holds the objects of a model, numbered in the order of creation. An
object has a type, perhaps a name, values in its slots, and two kinds of edges:
it holds other objects, each object being held at most once, and it refers to
objects that stay where they are. Every change either succeeds and gives the
new graph or names the rule that it would break.

Slots are not checked against their types here: that is the business of the one
who assigns them.
-/

namespace ModelText

/-- The place where an object is held. -/
structure Place where
  /-- The object that holds it. -/
  holder : ObjectId
  /-- The feature that holds it. -/
  feature : String
  deriving DecidableEq, Inhabited

/-- An object of a model. A slot or feature without entry was never set. -/
structure Object where
  /-- Its type. -/
  type : StructuredType
  /-- Its name. -/
  name : Option String
  /-- The place where it is held. -/
  place : Option Place
  /-- The values of its slots. -/
  slots : NameMap (List Value)
  /-- The objects it holds, by feature. -/
  compositions : NameMap (List ObjectId)
  /-- The objects it refers to, by feature. -/
  references : NameMap (List ObjectId)
  /-- The objects it holds through any feature, in the order of attachment. -/
  children : List ObjectId

/-- The objects of a model and those that stand for themselves. -/
structure Graph where
  /-- The objects, each at its number. -/
  objects : Array Object
  /-- The objects created as roots, in the order of creation. -/
  roots : List ObjectId

namespace Object

/-- An object of a type with nothing set. -/
def new (type : StructuredType) : Object :=
  ⟨type, none, none, .empty, .empty, .empty, []⟩

/-- The values given to a slot. -/
def values (o : Object) (slot : String) : List Value :=
  (o.slots.get? slot).getD []

/-- The objects held by a feature. -/
def held (o : Object) (composition : String) : List ObjectId :=
  (o.compositions.get? composition).getD []

/-- The objects a feature refers to. -/
def targets (o : Object) (reference : String) : List ObjectId :=
  (o.references.get? reference).getD []

/-- Gives a slot a value: one more value if it takes several, the only value
otherwise. -/
def assign (o : Object) (slot : Slot) (value : Value) : Object :=
  { o with slots := o.slots.update slot.name fun values =>
      if slot.many then values.getD [] ++ [value] else [value] }

/-- Refers to one more object. -/
def refer (o : Object) (reference : String) (target : ObjectId) : Object :=
  { o with references := o.references.update reference fun targets =>
      targets.getD [] ++ [target] }

/-- Holds one more object. -/
def hold (o : Object) (composition : String) (child : ObjectId) : Object :=
  { o with
    compositions := o.compositions.update composition fun held =>
      held.getD [] ++ [child]
    children := o.children ++ [child] }

theorem values_assign (o : Object) (slot : Slot) (value : Value)
    (name : String) : (o.assign slot value).values name =
      if name = slot.name then
        if slot.many then o.values slot.name ++ [value] else [value]
      else o.values name := by
  simp only [values, assign, NameMap.get?_update]
  split <;> simp

theorem targets_refer (o : Object) (reference name : String)
    (target : ObjectId) : (o.refer reference target).targets name =
      if name = reference then o.targets reference ++ [target]
      else o.targets name := by
  simp only [targets, refer, NameMap.get?_update]
  split <;> simp

theorem held_hold (o : Object) (composition name : String) (child : ObjectId) :
    (o.hold composition child).held name =
      if name = composition then o.held composition ++ [child]
      else o.held name := by
  simp only [held, hold, NameMap.get?_update]
  split <;> simp

end Object

namespace Graph

/-- The rules that a change of a graph can break. -/
inductive Error where
  /-- The object is not of the type that the feature expects. -/
  | typeMismatch (feature expected found : String)
  /-- The feature takes one object and has one. -/
  | alreadySet (feature : String)
  /-- The object is held already. -/
  | alreadyHeld (object : ObjectId)
  /-- The graph has no such object. -/
  | unknownObject (object : ObjectId)
  deriving DecidableEq

/-- The broken rule in words. -/
def Error.message : Error → String
  | .typeMismatch feature expected found =>
    "`" ++ feature ++ "` expects an instance of `" ++ expected ++
      "`, found `" ++ found ++ "`"
  | .alreadySet feature =>
    "`" ++ feature ++ "` holds a single value and is already set"
  | .alreadyHeld object =>
    "object " ++ object.text ++ " is already contained by another object"
  | .unknownObject object => "unknown object " ++ object.text

/-- The graph without objects. -/
def empty : Graph := ⟨#[], []⟩

instance : Inhabited Graph := ⟨empty⟩

/-- The number of objects. -/
def size (g : Graph) : Nat := g.objects.size

/-- All objects' numbers, in order. -/
def ids (g : Graph) : List ObjectId := (List.range g.size).map ObjectId.mk

/-- The object with a given number. -/
def object? (g : Graph) (id : ObjectId) : Option Object := g.objects[id.index]?

/-- The object with a given number, which has to be there. -/
def object (g : Graph) (id : ObjectId) : Except Error Object :=
  match g.object? id with
  | some o => .ok o
  | none => .error (.unknownObject id)

/-- Changes one object. -/
def update (g : Graph) (id : ObjectId) (f : Object → Object) : Graph :=
  { g with objects := g.objects.modify id.index f }

/-! ### Changes -/

/-- Creates an object, as a root or not, under the next number. -/
def instantiate (g : Graph) (type : StructuredType) (isRoot : Bool) :
    ObjectId × Graph :=
  let id : ObjectId := ⟨g.size⟩
  (id, ⟨g.objects.push (.new type), if isRoot then g.roots ++ [id] else g.roots⟩)

/-- Names an object. -/
def setName (g : Graph) (id : ObjectId) (name : String) :
    Except Error Graph := do
  let _ ← g.object id
  return g.update id fun o => { o with name := some name }

/-- Gives a slot of an object a value. -/
def setValue (g : Graph) (slot : Slot) (id : ObjectId) (value : Value) :
    Except Error Graph := do
  let _ ← g.object id
  return g.update id (·.assign slot value)

/-- Lets an object refer to another one. The target is looked at first. -/
def link (g : Graph) (reference : Feature) (source target : ObjectId) :
    Except Error Graph := do
  let found ← g.object target
  if !found.type.conformsTo reference.target then
    throw (.typeMismatch reference.name reference.target found.type.name)
  let object ← g.object source
  if !reference.many && !(object.targets reference.name).isEmpty then
    throw (.alreadySet reference.name)
  return g.update source (·.refer reference.name target)

/-- Lets an object hold another one, which nobody holds yet. -/
def addChild (g : Graph) (composition : Feature) (parent child : ObjectId) :
    Except Error Graph := do
  let holder ← g.object parent
  let held ← g.object child
  if held.place.isSome then
    throw (.alreadyHeld child)
  if !held.type.conformsTo composition.target then
    throw (.typeMismatch composition.name composition.target held.type.name)
  if !composition.many && !(holder.held composition.name).isEmpty then
    throw (.alreadySet composition.name)
  return (g.update parent (·.hold composition.name child)).update child
    fun o => { o with place := some ⟨parent, composition.name⟩ }

/-! ### When a change succeeds -/

theorem object_of_some {g : Graph} {id : ObjectId} {o : Object}
    (h : g.object? id = some o) : g.object id = .ok o := by
  simp [object, h]

theorem object_of_none {g : Graph} {id : ObjectId}
    (h : g.object? id = none) : g.object id = .error (.unknownObject id) := by
  simp [object, h]

theorem setName_eq (g : Graph) (id : ObjectId) (name : String) :
    g.setName id name = match g.object? id with
      | none => .error (.unknownObject id)
      | some _ => .ok (g.update id fun o => { o with name := some name }) := by
  unfold setName
  cases h : g.object? id with
  | none => rw [object_of_none h]; rfl
  | some o => rw [object_of_some h]; rfl

theorem setValue_eq (g : Graph) (slot : Slot) (id : ObjectId) (value : Value) :
    g.setValue slot id value = match g.object? id with
      | none => .error (.unknownObject id)
      | some _ => .ok (g.update id (·.assign slot value)) := by
  unfold setValue
  cases h : g.object? id with
  | none => rw [object_of_none h]; rfl
  | some o => rw [object_of_some h]; rfl

theorem link_eq (g : Graph) (reference : Feature) (source target : ObjectId) :
    g.link reference source target = match g.object? target with
      | none => .error (.unknownObject target)
      | some found =>
        if found.type.conformsTo reference.target = false then
          .error (.typeMismatch reference.name reference.target
            found.type.name)
        else match g.object? source with
          | none => .error (.unknownObject source)
          | some object =>
            if reference.many = false ∧
                object.targets reference.name ≠ [] then
              .error (.alreadySet reference.name)
            else .ok (g.update source (·.refer reference.name target)) := by
  unfold link
  cases ht : g.object? target with
  | none => rw [object_of_none ht]; rfl
  | some found =>
    rw [object_of_some ht]
    cases hc : found.type.conformsTo reference.target with
    | false => simp [hc, bind, Except.bind, throw, throwThe, MonadExceptOf.throw]
    | true =>
      cases hs : g.object? source with
      | none =>
        rw [object_of_none hs]
        simp [hc, bind, Except.bind]
      | some object =>
        rw [object_of_some hs]
        cases reference.many <;>
          cases hr : object.targets reference.name <;>
          simp [hc, hr, bind, Except.bind, pure, Except.pure, throw,
            throwThe, MonadExceptOf.throw]

theorem addChild_eq (g : Graph) (composition : Feature)
    (parent child : ObjectId) :
    g.addChild composition parent child = match g.object? parent with
      | none => .error (.unknownObject parent)
      | some holder => match g.object? child with
        | none => .error (.unknownObject child)
        | some held =>
          if held.place.isSome then .error (.alreadyHeld child)
          else if held.type.conformsTo composition.target = false then
            .error (.typeMismatch composition.name composition.target
              held.type.name)
          else if composition.many = false ∧
              holder.held composition.name ≠ [] then
            .error (.alreadySet composition.name)
          else .ok ((g.update parent (·.hold composition.name child)).update
            child fun o => { o with place := some ⟨parent, composition.name⟩ })
    := by
  unfold addChild
  cases hp : g.object? parent with
  | none => rw [object_of_none hp]; rfl
  | some holder =>
    rw [object_of_some hp]
    cases hc : g.object? child with
    | none => rw [object_of_none hc]; rfl
    | some held =>
      rw [object_of_some hc]
      cases hs : held.place with
      | some place =>
        simp [hs, bind, Except.bind, throw, throwThe, MonadExceptOf.throw]
      | none =>
        cases ht : held.type.conformsTo composition.target with
        | false =>
          simp [hs, ht, bind, Except.bind, throw, throwThe,
            MonadExceptOf.throw]
        | true =>
          cases composition.many <;>
            cases hh : holder.held composition.name <;>
            simp [hs, ht, hh, bind, Except.bind, pure, Except.pure, throw,
              throwThe, MonadExceptOf.throw]

/-! ### Questions -/

/-- The type of an object. -/
def type? (g : Graph) (id : ObjectId) : Option StructuredType :=
  (g.object? id).map (·.type)

/-- The name of an object, if it has one. -/
def name? (g : Graph) (id : ObjectId) : Option String :=
  (g.object? id).bind (·.name)

/-- The object that holds an object. -/
def parent? (g : Graph) (id : ObjectId) : Option ObjectId :=
  ((g.object? id).bind (·.place)).map (·.holder)

/-- The objects an object holds, in the order of attachment. -/
def children (g : Graph) (id : ObjectId) : List ObjectId :=
  ((g.object? id).map (·.children)).getD []

/-- The objects an object holds through one feature. -/
def childrenOf (g : Graph) (id : ObjectId) (composition : String) :
    List ObjectId :=
  ((g.object? id).map (·.held composition)).getD []

/-- The objects an object refers to through one feature. -/
def targets (g : Graph) (id : ObjectId) (reference : String) :
    List ObjectId :=
  ((g.object? id).map (·.targets reference)).getD []

/-- The values given to a slot of an object. -/
def values (g : Graph) (id : ObjectId) (slot : String) : List Value :=
  ((g.object? id).map (·.values slot)).getD []

/-- The value of a slot of an object: the first one given, or else the default
of the slot. -/
def value? (g : Graph) (id : ObjectId) (name : String) : Option Value := do
  let o ← g.object? id
  let slot ← o.type.slot? name
  return (o.values name).headD slot.default

/-! ### What a change does to the objects -/

@[simp] theorem size_update (g : Graph) (id : ObjectId)
    (f : Object → Object) : (g.update id f).size = g.size := by
  simp [size, update]

@[simp] theorem roots_update (g : Graph) (id : ObjectId)
    (f : Object → Object) : (g.update id f).roots = g.roots := rfl

theorem object?_update (g : Graph) (id other : ObjectId)
    (f : Object → Object) : (g.update id f).object? other =
      if other = id then (g.object? id).map f else g.object? other := by
  obtain ⟨i⟩ := id
  obtain ⟨j⟩ := other
  simp only [object?, update, Array.getElem?_modify, ObjectId.mk.injEq]
  by_cases h : j = i
  · simp [h]
  · simp [h, Ne.symm h]

@[simp] theorem size_instantiate (g : Graph) (type : StructuredType)
    (isRoot : Bool) : (g.instantiate type isRoot).2.size = g.size + 1 := by
  simp [size, instantiate]

theorem object?_instantiate (g : Graph) (type : StructuredType)
    (isRoot : Bool) (id : ObjectId) :
    (g.instantiate type isRoot).2.object? id =
      if id.index = g.size then some (.new type) else g.object? id := by
  simp only [object?, instantiate, size, Array.getElem?_push]
  rfl

theorem object?_eq_none_iff {g : Graph} {id : ObjectId} :
    g.object? id = none ↔ g.size ≤ id.index := by
  simp [object?, size]

end Graph

end ModelText
