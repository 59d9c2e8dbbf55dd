import ModelText.Construction.Fault
import ModelText.Event
import ModelText.Metamodel.Catalog
import ModelText.Problem.Sink

/-!
# Sessions

A compilation builds many units into one graph. A `Session` is what they share:
the graph, the problems so far, and the links that wait until all units are
built. A `Builder` is what one unit needs while it is built: the elements that
are open, and what the unit has declared so far. One builder builds all units
of a session, one after another, so it is part of the state that each unit
leaves behind; a `Construction` is a session together with its builder.
-/

namespace ModelText

/-- Which fatal problems keep an element from becoming a root of its unit. -/
inductive FatalScope where
  /-- Any fatal problem of the session. -/
  | session
  /-- The fatal problems of the unit. -/
  | unit
  deriving DecidableEq, Inhabited

/-- A link that waits for all units to be built. -/
structure LinkRequest where
  /-- The unit with the link. -/
  source : String
  /-- Where the link starts. -/
  position : Position
  /-- The place of the link. -/
  span : Span
  /-- The element that refers to another one. -/
  scope : ObjectId
  /-- The feature that refers. -/
  reference : Feature
  /-- The path to the other element. -/
  path : List String
  deriving DecidableEq

/-- What the units of a compilation share. -/
structure Session where
  /-- The objects so far. -/
  graph : Graph
  /-- The problems so far. -/
  sink : Sink
  /-- The links that wait, in the order they were written. -/
  requests : List LinkRequest

namespace Session

/-- The session before the first unit. -/
def empty : Session := ⟨.empty, .empty, []⟩

instance : Inhabited Session := ⟨empty⟩

/-- Reports a problem. -/
def report (s : Session) (p : Problem) : Session :=
  { s with sink := s.sink.report p }

/-- Whether an element that ends now becomes a root of its unit. -/
def acceptsRoots (s : Session) (scope : FatalScope) (source : String) : Bool :=
  match scope with
  | .session => !s.sink.fatalSeen
  | .unit => !s.sink.hasFatalIn source

end Session

/-- An element or a record under construction. -/
structure Scope where
  /-- The object that stands for it. -/
  object : ObjectId
  /-- Its type. -/
  type : StructuredType
  /-- The modifiers that have not been applied to it yet. -/
  modifiers : List (Spanned String)
  deriving DecidableEq, Inhabited

/-- What building a unit needs besides the session. -/
structure Builder where
  /-- The elements and records that are open or wait for the end of their
  block, the latest first. -/
  scopes : List Scope
  /-- The languages of the unit. -/
  languages : NameSet
  /-- The modifiers of the element that starts next. -/
  modifiers : List (Spanned String)
  /-- The units that the unit imports. -/
  imports : NameSet
  /-- The elements at the top level, in the order of their ends. -/
  roots : List ObjectId

/-- The builder before the first unit. -/
def Builder.new : Builder := ⟨[], .empty, [], .empty, []⟩

/-- A session and the builder of its units. -/
structure Construction extends Session, Builder

/-- The state before the first unit. -/
def Construction.new : Construction := ⟨.empty, .new⟩

/-- A unit: its name and its text. -/
structure SourceUnit where
  /-- The name. -/
  name : String
  /-- The text. -/
  text : String
  deriving DecidableEq, Inhabited

/-- What building depends on. -/
structure BuildContext where
  /-- The types. -/
  metamodel : Metamodel
  /-- Which fatal problems keep elements from becoming roots. -/
  fatalScope : FatalScope
  /-- The unit. -/
  unit : SourceUnit

/-- Reports what is wrong with a unit. -/
def Session.reportIn (s : Session) (unit : SourceUnit) (d : Diagnostic) :
    Session :=
  s.report (.locate unit.name unit.text d)

/-- Reports a fault of the unit. -/
def Session.reportFault (s : Session) (unit : SourceUnit)
    (f : Spanned Fault) : Session :=
  s.reportIn unit (Fault.diagnostic f)

/-- Reports a fault of the unit. -/
def Construction.reportFault (c : Construction) (unit : SourceUnit)
    (f : Spanned Fault) : Construction :=
  { c with toSession := c.toSession.reportFault unit f }

end ModelText
