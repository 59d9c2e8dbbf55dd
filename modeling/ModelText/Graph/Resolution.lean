import ModelText.Graph.Basic

/-!
# Finding objects by name

A path such as `app.main.title` is read from some object. Its first name is
looked for from the inside out: the object itself and what it holds, then its
holder and what that holds, and so on, and at last the roots of the model. The
first object of that name is taken, so an inner name hides an outer one. The
other names lead strictly downwards from there.

An object that holds itself in a roundabout way has no outermost holder. The
walk outwards visits no more objects than there are, so that it ends there too,
when it has seen all it could see.
-/

namespace ModelText.Graph

/-- The first object of a given name that an object holds. -/
def childNamed? (g : Graph) (id : ObjectId) (name : String) :
    Option ObjectId :=
  (g.children id).find? fun child => g.name? child = some name

/-- An object, its holder, and so on, in so many steps. -/
def outwards (g : Graph) : Nat → ObjectId → List ObjectId
  | 0, id => [id]
  | steps + 1, id =>
    id :: match g.parent? id with
      | some parent => g.outwards steps parent
      | none => []

/-- An object and all that hold it, from the inside out. -/
def enclosing (g : Graph) (id : ObjectId) : List ObjectId :=
  g.outwards g.size id

/-- The objects that the first name of a path can mean, those that come first
hiding the others. -/
def candidates (g : Graph) (scope : ObjectId) : List ObjectId :=
  (g.enclosing scope).flatMap (fun id => id :: g.children id) ++ g.roots

/-- The object that a path means when it is read from `scope`. -/
def resolve? (g : Graph) (scope : ObjectId) : List String → Option ObjectId
  | [] => none
  | first :: rest => do
    let found ← (g.candidates scope).find? fun id => g.name? id = some first
    rest.foldlM g.childNamed? found

@[simp] theorem resolve?_nil (g : Graph) (scope : ObjectId) :
    g.resolve? scope [] = none := rfl

end ModelText.Graph
