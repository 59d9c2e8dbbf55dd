import ModelText.Construction.Step

/-!
# Building a unit

A unit is built event by event until a fatal fault ends it. What it declared
before is kept, its imports included. A unit whose text has not the right form
adds problems to the session and nothing else.

The builder is used again for the next unit. What a unit declares for itself is
forgotten when the next one begins, and what it hands out is taken out of the
builder when it ends.
-/

namespace ModelText

/-- What a unit has declared when it is built. -/
structure UnitOutcome where
  /-- Its elements at the top level. -/
  roots : List ObjectId
  /-- The units it imports. -/
  imports : List String
  deriving DecidableEq, Inhabited

/-- Does the steps of a list of events; faults that are not fatal are only
reported. -/
def Build.steps (ctx : BuildContext) : Events → Build Unit
  | [] => pure ()
  | event :: rest => do
    recover ctx.unit (step ctx event)
    steps ctx rest

namespace Construction

/-- Builds a list of events until a fatal fault ends it. -/
def run (c : Construction) (ctx : BuildContext) (events : Events) :
    Construction :=
  match (Build.steps ctx events).exec c with
  | (.ok _, c) => c
  | (.error f, c) => c.reportFault ctx.unit f

/-- Begins a unit: languages, open elements and modifiers of the unit before
are forgotten. -/
def begin (c : Construction) : Construction :=
  { c with languages := .empty, scopes := [], modifiers := [] }

/-- Ends a unit: its roots and imports are taken out of the builder. A unit that
a fault has ended leaves elements open; they are forgotten. -/
def finish (c : Construction) : UnitOutcome × Construction :=
  (⟨c.roots, c.imports.toList⟩,
    { c with scopes := [], modifiers := [], roots := [], imports := .empty })

/-- Builds a unit. -/
def build (c : Construction) (ctx : BuildContext) :
    UnitOutcome × Construction :=
  let c := c.begin
  match Event.ofSource ctx.unit.text with
  | .ok events => (c.run ctx events).finish
  | .error diagnostics =>
    finish { c with
      toSession := diagnostics.foldl (·.reportIn ctx.unit ·) c.toSession }

end Construction

end ModelText
