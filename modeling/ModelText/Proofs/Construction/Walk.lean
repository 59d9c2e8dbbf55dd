import ModelText.Construction.Unit

/-!
# Building a unit along its tree

A unit is built from a flat list of events, with a stack that remembers which
element each of them belongs to. The walk of this module builds the same unit
along its tree and needs no stack: what belongs to an element is built by the
recursion on its declaration, which knows the element. `Declaration.walk`
builds one element with all it holds, and `SourceTree.walk` builds a unit.

The walk is the form in which properties of units are proved: what it does to
the session is found by induction on the tree.
-/

namespace ModelText

namespace SessionWork

/-- Gives a slot of an object a value that depends on the slot. -/
def assignBy (object : ObjectId) (type : StructuredType)
    (name : Spanned String) (value : Slot → SessionWork Value) :
    SessionWork Unit := do
  match type.slot? name.value with
  | none => Work.fail (.unknownSlot name.value type) name.span
  | some slot =>
    let value ← value slot
    change .assignment name.span (·.setValue slot object value)

mutual

/-- The value of a literal for a slot. -/
def value (m : Metamodel) (unit : SourceUnit) (slot : Slot) (span : Span)
    (literal : Literal) : SessionWork Value := do
  match m.lookup? slot.type with
  | none => Work.fail (.untypedSlot slot) span
  | some type =>
    match type, literal with
    | .record type, .record fields =>
      let object ← instantiate (.record type) false
      assignFields m unit object (.record type) fields
      return .record object
    | type, literal => Work.ofExcept span (type.value slot literal)

/-- Assigns the fields of a record. -/
def assignFields (m : Metamodel) (unit : SourceUnit) (object : ObjectId)
    (type : StructuredType) : List Field → SessionWork Unit
  | [] => pure ()
  | ⟨name, ⟨literal, span⟩⟩ :: rest => do
    recover unit (assignBy object type name fun slot =>
      value m unit slot span literal)
    assignFields m unit object type rest

end

/-- Gives a slot of an object the value of a literal. -/
def assign (m : Metamodel) (unit : SourceUnit) (object : ObjectId)
    (type : StructuredType) (name : Spanned String)
    (literal : Spanned Literal) : SessionWork Unit :=
  assignBy object type name fun slot =>
    value m unit slot literal.span literal.value

/-- Puts the link of an element aside, or takes a single name for the literal
of a slot. -/
def link (ctx : BuildContext) (object : ObjectId) (type : ObjectType)
    (feature : Spanned String) (path : Spanned (List String)) :
    SessionWork Unit :=
  match type.reference? feature.value with
  | some reference =>
    deferLink ctx object reference path.value (feature.span.union path.span)
  | none =>
    match type.literalName? feature.value path.value with
    | some name =>
      assign ctx.metamodel ctx.unit object (.object type) feature
        ⟨.identifier name, path.span⟩
    | none =>
      Work.fail (.unknownFeature .reference feature.value type) feature.span

end SessionWork

/-- Creates the element that a header declares, and applies the modifiers
before the header to it. -/
def SessionWork.declare (ctx : BuildContext) (languages : NameSet)
    (atTop : Bool) (modifiers : List (Spanned String))
    (typeWord : Spanned String) (name : Option (Spanned String)) :
    SessionWork (ObjectId × ObjectType) := do
  let (object, type) ← create ctx languages atTop typeWord name
  modifiers.forM (applyModifier ctx object (.object type))
  return (object, type)

mutual

/-- Builds an element and what it holds. -/
def Declaration.walk (ctx : BuildContext) (languages : NameSet)
    (atTop : Bool) : Declaration → SessionWork ObjectId
  | ⟨modifiers, typeWord, name, members, _⟩ => do
    let (object, type) ←
      SessionWork.declare ctx languages atTop modifiers typeWord name
    memberWalk ctx languages object type members
    return object

/-- Builds the members of an element, in order. The elements of a block are all
built before the first of them is attached. -/
def memberWalk (ctx : BuildContext) (languages : NameSet) (object : ObjectId)
    (type : ObjectType) : List Member → SessionWork Unit
  | [] => pure ()
  | .slot name value :: rest => do
    SessionWork.recover ctx.unit (SessionWork.assign ctx.metamodel ctx.unit
      object (.object type) name value)
    memberWalk ctx languages object type rest
  | .link feature path :: rest => do
    SessionWork.recover ctx.unit (.link ctx object type feature path)
    memberWalk ctx languages object type rest
  | .block feature declarations _ :: rest => do
    let composition ← Work.ofExcept feature.span
      (type.compositionNamed feature.value)
    let children ← declarationWalk ctx languages declarations
    SessionWork.attach ctx feature.span composition object children
    memberWalk ctx languages object type rest

/-- Builds the elements of a block, in order. -/
def declarationWalk (ctx : BuildContext) (languages : NameSet) :
    List Declaration → SessionWork (List ObjectId)
  | [] => pure []
  | d :: rest => do
    let object ← d.walk ctx languages false
    let others ← declarationWalk ctx languages rest
    return object :: others

end

/-- A unit on the way through its tree: the session, and what the unit has
declared so far. -/
structure Walk extends Session where
  /-- The languages of the unit. -/
  languages : NameSet
  /-- The units that the unit imports. -/
  imports : NameSet
  /-- The elements at the top level. -/
  roots : List ObjectId

namespace Walk

/-- Adds a language, and remarks if it has no types. -/
def declareLanguage (w : Walk) (ctx : BuildContext)
    (name : Spanned String) : Walk :=
  if w.languages.contains name.value then w
  else
    { w with
      toSession :=
        if (ctx.metamodel.visibleTypes (NameSet.ofList [name.value])).isEmpty
        then w.reportFault ctx.unit ⟨.emptyLanguage name.value, name.span⟩
        else w.toSession
      languages := w.languages.insert name.value }

theorem declareLanguage_imports (w : Walk) (ctx : BuildContext)
    (name : Spanned String) :
    (w.declareLanguage ctx name).imports = w.imports := by
  unfold declareLanguage
  split <;> rfl

theorem declareLanguage_roots (w : Walk) (ctx : BuildContext)
    (name : Spanned String) :
    (w.declareLanguage ctx name).roots = w.roots := by
  unfold declareLanguage
  split <;> rfl

/-- Makes an element a root of the unit, if fatal problems do not keep it. -/
def collect (w : Walk) (ctx : BuildContext) (object : ObjectId) : Walk :=
  if w.acceptsRoots ctx.fatalScope ctx.unit.name then
    { w with roots := w.roots ++ [object] }
  else w

@[simp] theorem toSession_collect (w : Walk) (ctx : BuildContext)
    (object : ObjectId) : (w.collect ctx object).toSession = w.toSession := by
  unfold collect
  split <;> rfl

/-- Builds the items of a unit, in order, until a fatal fault ends it. -/
def items (ctx : BuildContext) : List Item → Walk → Walk
  | [], w => w
  | .language name :: rest, w => items ctx rest (w.declareLanguage ctx name)
  | .importUnit name :: rest, w =>
    items ctx rest { w with imports := w.imports.insert name.value }
  | .declaration d :: rest, w =>
    match (d.walk ctx w.languages true).exec w.toSession with
    | (.ok object, s) =>
      items ctx rest (({ w with toSession := s } : Walk).collect ctx object)
    | (.error f, s) => { w with toSession := s.reportFault ctx.unit f }

end Walk

/-- Builds a unit along its tree. -/
def SourceTree.walk (tree : SourceTree) (ctx : BuildContext) (w : Walk) :
    Walk :=
  Walk.items ctx tree.items w

/-- Builds a unit of its own along its tree. A text with faults has no tree. -/
def Session.walkUnit (s : Session) (ctx : BuildContext) :
    UnitOutcome × Session :=
  match SourceTree.ofSource ctx.unit.text with
  | .error diagnostics => (⟨[], []⟩, diagnostics.foldl (·.reportIn ctx.unit ·) s)
  | .ok tree =>
    let w := tree.walk ctx ⟨s, .empty, .empty, []⟩
    (⟨w.roots, w.imports.toList⟩, w.toSession)

end ModelText
