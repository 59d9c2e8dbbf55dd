import ModelText.Construction.Assignment

/-!
# Steps of construction

Every event of a unit is one step. Elements that start are put on a stack, and
slots and links belong to the element on top of it. An element of a block stays
on the stack until the block ends; then the elements of the block are taken
from the stack and attached, in the order in which they were declared, to the
element that is on top without them. An element at the top level leaves the
stack at its own end.
-/

namespace ModelText

namespace Build

/-- Adds a language to the unit. -/
def language (ctx : BuildContext) (name : String) (span : Span) :
    Build Unit := do
  if (← get).languages.contains name then pure ()
  else do
    modify fun c => { c with languages := c.languages.insert name }
    if (ctx.metamodel.visibleTypes (NameSet.ofList [name])).isEmpty then
      session (.report ctx.unit ⟨.emptyLanguage name, span⟩)
    else pure ()

/-- Applies the modifiers of the element on top, each of them once. -/
def applyModifiers (ctx : BuildContext) : Build Unit := do
  match (← get).scopes with
  | [] => pure ()
  | scope :: rest =>
    modify fun c => { c with scopes := { scope with modifiers := [] } :: rest }
    session (scope.modifiers.forM
      (.applyModifier ctx scope.object scope.type))

/-- Starts an element, to which the modifiers so far belong. -/
def start (ctx : BuildContext) (typeWord : Spanned String)
    (name : Option (Spanned String)) : Build Unit := do
  let c ← get
  let (object, type) ← session
    (.create ctx c.languages c.scopes.isEmpty typeWord name)
  modify fun c => { c with modifiers := [] }
  push ⟨object, .object type, c.modifiers⟩
  applyModifiers ctx

/-- Ends an element. One in a block stays until the block ends; one at the top
level becomes a root of the unit if fatal problems do not keep it. -/
def stop (ctx : BuildContext) (span : Span) : Build Unit := do
  match (← get).scopes with
  | [] => Work.fail .endWithoutStart span
  | [scope] =>
    modify fun c => { c with
      scopes := []
      roots :=
        if c.acceptsRoots ctx.fatalScope ctx.unit.name then
          c.roots ++ [scope.object]
        else c.roots }
  | _ => pure ()

/-- The element on top of the stack, which has to be one with features. -/
def element (feature : Spanned String) : Build (ObjectId × ObjectType) := do
  match (← get).scopes with
  | [] => Work.fail (.featureOutside feature.value) feature.span
  | ⟨object, .object type, _⟩ :: _ => return (object, type)
  | ⟨_, .record type, _⟩ :: _ =>
    Work.fail (.noFeatures type.name) feature.span

/-- The element on top of the stack and its feature that holds elements. -/
def composition (feature : Spanned String) : Build (ObjectId × Feature) := do
  let (object, type) ← element feature
  let composition ← Work.ofExcept feature.span
    (type.compositionNamed feature.value)
  return (object, composition)

/-- Ends a block of so many elements. -/
def blockEnd (ctx : BuildContext) (feature : Spanned String) (count : Nat)
    (span : Span) : Build Unit := do
  let children ← popMany count span
  let (parent, composition) ← composition feature
  session (.attach ctx feature.span composition parent
    (children.map (·.object)))

/-- Keeps a link until all units are built. A single name for a slot is a
literal, not a link. -/
def link (ctx : BuildContext) (feature : Spanned String)
    (path : Spanned (List String)) (span : Span) : Build Unit := do
  let (object, type) ← element feature
  match type.reference? feature.value with
  | some reference =>
    session (.deferLink ctx object reference path.value span)
  | none =>
    match type.literalName? feature.value path.value with
    | some name =>
      assign ctx.metamodel ctx.unit feature ⟨.identifier name, path.span⟩
    | none =>
      Work.fail (.unknownFeature .reference feature.value type) feature.span

/-- The step of an event. -/
def step (ctx : BuildContext) (event : Spanned Event) : Build Unit :=
  match event.value with
  | .language name => language ctx name event.span
  | .importUnit name =>
    modify fun c => { c with imports := c.imports.insert name }
  | .modifier tag =>
    modify fun c => { c with modifiers := c.modifiers ++ [⟨tag, event.span⟩] }
  | .start typeWord name => start ctx typeWord name
  | .stop => stop ctx event.span
  | .slot name literal => assign ctx.metamodel ctx.unit name literal
  | .blockStart feature => do
    let _ ← composition feature
  | .blockEnd feature count => blockEnd ctx feature count event.span
  | .link feature path => link ctx feature path event.span

end Build

end ModelText
