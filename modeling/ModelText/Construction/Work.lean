import ModelText.Construction.Session
import ModelText.Text.Capital

/-!
# Work on a unit

A step of construction can find a fault. `Work σ` is work on a state `σ` that a
fault can end: what was done before the fault stays done, and whoever asked for
the work decides what becomes of the fault. A `SessionWork` is work on the
session alone: it creates objects, changes the graph, reports faults and puts
links aside. A `Build` is work on the session and its builder; work on the
session is a `Build` that leaves the builder alone.

`Work.exec` is the view of work, and the lemmas say what each way to put work
together does to that view.
-/

namespace ModelText

/-- Work on a state, which a fault can end. -/
abbrev Work (σ : Type) := ExceptT (Spanned Fault) (StateM σ)

namespace Work

/-- Does the work on a state: what comes of it, and the state behind it. -/
def exec {σ α : Type} (work : Work σ α) (s : σ) :
    Except (Spanned Fault) α × σ :=
  (ExceptT.run work).run s

/-- Ends the work. -/
def fail {σ α : Type} (fault : Fault) (span : Span) : Work σ α :=
  throw ⟨fault, span⟩

/-- The result of a question, or the fault that it found at a place. -/
def ofExcept {σ α : Type} (span : Span) : Except Fault α → Work σ α
  | .ok a => pure a
  | .error fault => fail fault span

/-- Does work; a fault that is not fatal is only reported. -/
def recoverBy {σ : Type} (report : Spanned Fault → Work σ Unit)
    (work : Work σ Unit) : Work σ Unit :=
  tryCatch work fun f =>
    if f.value.severity.isFatal then throw f else report f

variable {σ α β : Type}

@[simp] theorem exec_pure (a : α) (s : σ) :
    (pure a : Work σ α).exec s = (.ok a, s) := rfl

@[simp] theorem exec_fail (fault : Fault) (span : Span) (s : σ) :
    (fail fault span : Work σ α).exec s = (.error ⟨fault, span⟩, s) := rfl

@[simp] theorem exec_get (s : σ) :
    (get : Work σ σ).exec s = (.ok s, s) := rfl

@[simp] theorem exec_modify (f : σ → σ) (s : σ) :
    (modify f : Work σ PUnit).exec s = (.ok ⟨⟩, f s) := rfl

@[simp] theorem exec_modifyGet (f : σ → α × σ) (s : σ) :
    (modifyGet f : Work σ α).exec s = (.ok (f s).1, (f s).2) := rfl

theorem exec_bind (work : Work σ α) (next : α → Work σ β) (s : σ) :
    (work >>= next).exec s = match work.exec s with
      | (.ok a, t) => (next a).exec t
      | (.error f, t) => (.error f, t) := by
  change (ExceptT.bindCont next (work.exec s).1 : StateM σ _)
    (work.exec s).2 = _
  rcases work.exec s with ⟨_ | _, t⟩ <;> rfl

theorem exec_bind_of_ok {work : Work σ α} {s t : σ} {a : α}
    (h : work.exec s = (.ok a, t)) (next : α → Work σ β) :
    (work >>= next).exec s = (next a).exec t := by
  rw [exec_bind, h]

theorem exec_bind_of_error {work : Work σ α} {s t : σ} {f : Spanned Fault}
    (h : work.exec s = (.error f, t)) (next : α → Work σ β) :
    (work >>= next).exec s = (.error f, t) := by
  rw [exec_bind, h]

/-- Work behind other work is done unless a fault ended that. -/
theorem exec_bind_eq {work : Work σ α} {next : α → Work σ β} {s t : σ}
    {r : Except (Spanned Fault) β} (h : (work >>= next).exec s = (r, t)) :
    (∃ f, work.exec s = (.error f, t) ∧ r = .error f) ∨
      ∃ a u, work.exec s = (.ok a, u) ∧ (next a).exec u = (r, t) := by
  rcases hw : work.exec s with ⟨f | a, u⟩
  · rw [exec_bind_of_error hw] at h
    cases h
    exact .inl ⟨f, rfl, rfl⟩
  · rw [exec_bind_of_ok hw] at h
    exact .inr ⟨a, u, rfl, h⟩

theorem exec_bind_eq_ok {work : Work σ α} {next : α → Work σ β} {s t : σ}
    {b : β} (h : (work >>= next).exec s = (.ok b, t)) :
    ∃ a u, work.exec s = (.ok a, u) ∧ (next a).exec u = (.ok b, t) := by
  rcases exec_bind_eq h with ⟨f, -, hf⟩ | ha
  · cases hf
  · exact ha

theorem exec_recoverBy (report : Spanned Fault → Work σ Unit)
    (work : Work σ Unit) (s : σ) :
    (recoverBy report work).exec s = match work.exec s with
      | (.ok a, t) => (.ok a, t)
      | (.error f, t) =>
        if f.value.severity.isFatal then (.error f, t)
        else (report f).exec t := by
  simp only [recoverBy, exec, ExceptT.run, tryCatch, tryCatchThe,
    MonadExceptOf.tryCatch, ExceptT.tryCatch, ExceptT.mk, StateT.run_bind]
  rcases StateT.run work s with ⟨f | _, t⟩
  · change StateT.run (if f.value.severity.isFatal then throw f
      else report f : Work σ Unit) t = _
    dsimp only
    split <;> rfl
  · rfl

section

variable {report : Spanned Fault → Work σ Unit} {work : Work σ Unit} {s t : σ}
  {f : Spanned Fault}

theorem exec_recoverBy_of_ok (h : work.exec s = (.ok (), t)) :
    (recoverBy report work).exec s = (.ok (), t) := by
  rw [exec_recoverBy, h]

theorem exec_recoverBy_of_fatal (h : work.exec s = (.error f, t))
    (hf : f.value.severity.isFatal = true) :
    (recoverBy report work).exec s = (.error f, t) := by
  rw [exec_recoverBy, h]
  exact if_pos hf

theorem exec_recoverBy_of_error (h : work.exec s = (.error f, t))
    (hf : f.value.severity.isFatal = false) :
    (recoverBy report work).exec s = (report f).exec t := by
  rw [exec_recoverBy, h]
  dsimp only
  rw [hf]
  rfl

end

theorem exec_ofExcept_eq_ok {result : Except Fault α} {span : Span} {s t : σ}
    {a : α} (h : (ofExcept span result : Work σ α).exec s = (.ok a, t)) :
    result = .ok a ∧ t = s := by
  cases result with
  | error fault => cases h
  | ok b =>
    cases h
    exact ⟨rfl, rfl⟩

end Work

/-- Work on the session. -/
abbrev SessionWork := Work Session

/-- Work on a unit under construction. -/
abbrev Build := Work Construction

/-- The value that a modifier stands for: a truth value slot of its name is
true, and else the first slot with a literal of its name has that literal. A
slot of its name has to be of one of these kinds. -/
def StructuredType.modified (m : Metamodel) (type : StructuredType)
    (tag : String) : Except Fault (Slot × Value) :=
  let literal : Except Fault (Slot × Value) :=
    match type.slots.find? fun slot =>
      match m.lookup? slot.type with
      | some (.enumerated enumeration) => enumeration.hasLiteral tag
      | _ => false
    with
    | some slot => .ok (slot, .enumerated tag)
    | none => .error (.unknownModifier tag type.name)
  match type.slot? tag with
  | none => literal
  | some slot =>
    match m.lookup? slot.type with
    | some (.enumerated _) => literal
    | some (.primitive ⟨_, .boolean⟩) => .ok (slot, .boolean true)
    | _ => .error (.unsuitableModifier tag slot.type)

theorem StructuredType.modified_eq_ok {m : Metamodel} {type : StructuredType}
    {tag : String} {slot : Slot} {value : Value}
    (h : type.modified m tag = .ok (slot, value)) :
    slot ∈ type.slots ∧
      ((value = .boolean true ∧
          ∃ name, m.lookup? slot.type = some (.primitive ⟨name, .boolean⟩)) ∨
        (value = .enumerated tag ∧
          ∃ e, m.lookup? slot.type = some (.enumerated e) ∧
            e.hasLiteral tag = true)) := by
  unfold modified slot? slotNamed? at h
  grind

theorem StructuredType.modified_eq_error {m : Metamodel}
    {type : StructuredType} {tag : String} {fault : Fault}
    (h : type.modified m tag = .error fault) :
    fault = .unknownModifier tag type.name ∨
      ∃ slot, type.slot? tag = some slot ∧
        fault = .unsuitableModifier tag slot.type ∧
        (∀ e, m.lookup? slot.type ≠ some (.enumerated e)) ∧
        ∀ name, m.lookup? slot.type ≠ some (.primitive ⟨name, .boolean⟩) := by
  unfold modified at h
  grind

/-- The object type that the type word of an element names. -/
def Metamodel.elementType (m : Metamodel) (languages : NameSet)
    (name : String) : Except Fault ObjectType :=
  match m.visible? name languages with
  | none => .error (.unknownType name)
  | some (.object type) =>
    if type.isAbstract then .error (.abstractType name) else .ok type
  | some type => .error (.notElementType name type.kindName)

/-- The feature of an element type that holds elements under a given name. -/
def ObjectType.compositionNamed (type : ObjectType) (name : String) :
    Except Fault Feature :=
  match type.composition? name with
  | some composition => .ok composition
  | none => .error (.unknownFeature .composition name type)

/-- The name of a literal in the place of a link: a path of a single name whose
feature is a slot. -/
def ObjectType.literalName? (type : ObjectType) (feature : String)
    (path : List String) : Option String :=
  match type.slot? feature, path with
  | some _, [name] => some name
  | _, _ => none

namespace SessionWork

/-- Reports a fault of a unit. -/
def report (unit : SourceUnit) (f : Spanned Fault) : SessionWork Unit :=
  modify (·.reportFault unit f)

/-- Does work; a fault that is not fatal is only reported. -/
def recover (unit : SourceUnit) (work : SessionWork Unit) : SessionWork Unit :=
  Work.recoverBy (report unit) work

/-- A fault of the work comes out as it is, or was reported. -/
theorem exec_recover_eq {unit : SourceUnit} {work : SessionWork Unit}
    {s t : Session} {r : Except (Spanned Fault) Unit}
    (h : (recover unit work).exec s = (r, t)) :
    work.exec s = (r, t) ∨ ∃ f u, work.exec s = (.error f, u) ∧
      f.value.severity.isFatal = false ∧ r = .ok () ∧
        t = u.reportFault unit f := by
  rcases hw : work.exec s with ⟨f | ⟨⟩, u⟩
  · cases hf : f.value.severity.isFatal with
    | true =>
      rw [recover, Work.exec_recoverBy_of_fatal hw hf] at h
      exact .inl h
    | false =>
      rw [recover, Work.exec_recoverBy_of_error hw hf] at h
      cases h
      exact .inr ⟨f, u, rfl, hf, rfl, rfl⟩
  · rw [recover, Work.exec_recoverBy_of_ok hw] at h
    exact .inl h

/-- Creates an object. -/
def instantiate (type : StructuredType) (isRoot : Bool) : SessionWork ObjectId :=
  modifyGet fun s =>
    let (id, graph) := s.graph.instantiate type isRoot
    (id, { s with graph := graph })

/-- Changes the graph, if it allows the change. -/
def change (attempt : Attempt) (span : Span)
    (f : Graph → Except Graph.Error Graph) : SessionWork Unit := do
  match f (← get).graph with
  | .ok graph => modify fun s => { s with graph := graph }
  | .error e => Work.fail (.refused e attempt) span

theorem exec_change_of_ok {attempt : Attempt} {span : Span}
    {f : Graph → Except Graph.Error Graph} {s : Session} {graph : Graph}
    (h : f s.graph = .ok graph) :
    (change attempt span f).exec s = (.ok (), { s with graph := graph }) := by
  rw [change, Work.exec_bind_of_ok (Work.exec_get s), h]
  rfl

theorem exec_change_of_error {attempt : Attempt} {span : Span}
    {f : Graph → Except Graph.Error Graph} {s : Session} {e : Graph.Error}
    (h : f s.graph = .error e) :
    (change attempt span f).exec s =
      (.error ⟨.refused e attempt, span⟩, s) := by
  rw [change, Work.exec_bind_of_ok (Work.exec_get s), h]
  rfl

/-- Puts a link aside until all units are built. -/
def defer (request : LinkRequest) : SessionWork Unit :=
  modify fun s => { s with requests := s.requests ++ [request] }

/-- An element at the top level needs a language before it. -/
def needLanguage (languages : NameSet) (atTop : Bool) (span : Span) :
    SessionWork Unit :=
  if atTop && languages.isEmpty then Work.fail .noLanguages span else pure ()

/-- Remarks that an element stands at the top level whose type is not meant for
it. -/
def remarkPlace (unit : SourceUnit) (type : ObjectType) (atTop : Bool)
    (typeName : String) (span : Span) : SessionWork Unit :=
  if atTop && !type.isRoot then report unit ⟨.notRootType typeName, span⟩
  else pure ()

/-- Names an object, if there is a name for it. -/
def nameObject (object : ObjectId) : Option (Spanned String) → SessionWork Unit
  | none => pure ()
  | some name => change .name name.span (·.setName object name.value)

/-- Creates the element that a header declares. -/
def create (ctx : BuildContext) (languages : NameSet) (atTop : Bool)
    (typeWord : Spanned String) (name : Option (Spanned String)) :
    SessionWork (ObjectId × ObjectType) := do
  needLanguage languages atTop typeWord.span
  let typeName := Text.capitalized typeWord.value
  let type ← Work.ofExcept typeWord.span
    (ctx.metamodel.elementType languages typeName)
  remarkPlace ctx.unit type atTop typeName typeWord.span
  let object ← instantiate (.object type) type.isRoot
  nameObject object name
  return (object, type)

/-- Does to an object what a modifier says. -/
def applyModifier (ctx : BuildContext) (object : ObjectId)
    (type : StructuredType) (modifier : Spanned String) : SessionWork Unit := do
  let (slot, value) ← Work.ofExcept modifier.span
    (type.modified ctx.metamodel modifier.value)
  change .modifier modifier.span (·.setValue slot object value)

/-- Lets an element hold others, in order; one that the graph refuses is
reported and left out. -/
def attach (ctx : BuildContext) (span : Span) (composition : Feature)
    (parent : ObjectId) (children : List ObjectId) : SessionWork Unit :=
  children.forM fun child =>
    recover ctx.unit
      (change .attachment span (·.addChild composition parent child))

/-- Puts a link of an element of a unit aside. -/
def deferLink (ctx : BuildContext) (scope : ObjectId) (reference : Feature)
    (path : List String) (span : Span) : SessionWork Unit :=
  defer
    { source := ctx.unit.name
      position := .ofOffset ctx.unit.text span.start
      span := span
      scope := scope
      reference := reference
      path := path }

end SessionWork

namespace Build

/-- Work on the session of a unit; the builder stays as it is. -/
def session {α : Type} (work : SessionWork α) : Build α :=
  ExceptT.mk fun c =>
    let (result, s) := work.exec c.toSession
    pure (result, { c with toSession := s })

/-- Does work; a fault that is not fatal is only reported. -/
def recover (unit : SourceUnit) (work : Build Unit) : Build Unit :=
  Work.recoverBy (fun f => session (.report unit f)) work

@[simp] theorem exec_session {α : Type} (work : SessionWork α)
    (c : Construction) : (session work).exec c =
      ((work.exec c.toSession).1,
        { c with toSession := (work.exec c.toSession).2 }) := rfl

/-- Opens a scope. -/
def push (scope : Scope) : Build Unit :=
  modify fun c => { c with scopes := scope :: c.scopes }

/-- Closes the scope on top. -/
def pop : Build Unit :=
  modify fun c => { c with scopes := c.scopes.tail }

/-- Closes so many scopes, which come in the order in which they were opened.
If there are less, none is closed. -/
def popMany (count : Nat) (span : Span) : Build (List Scope) := do
  let scopes := (← get).scopes
  if scopes.length < count then Work.fail .endWithoutBlock span
  else do
    modify fun c => { c with scopes := scopes.drop count }
    return (scopes.take count).reverse

end Build

end ModelText
