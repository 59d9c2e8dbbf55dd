import ModelText.Diagnostic.Basic

/-!
# Collecting diagnostics

A stage that can go on after a fault collects its diagnostics and reports all
of them at the end. The stage has failed if one of them is more than a warning.
-/

namespace ModelText

/-- Diagnostics in the order they were given. -/
structure Collector where
  /-- The diagnostics so far. -/
  diagnostics : List Diagnostic
  deriving Inhabited

namespace Collector

/-- A collector without diagnostics. -/
def empty : Collector := ⟨[]⟩

/-- Adds a diagnostic behind the others. -/
def emit (c : Collector) (d : Diagnostic) : Collector :=
  ⟨c.diagnostics ++ [d]⟩

/-- Whether one of the diagnostics is more than a warning. -/
def hasErrors (c : Collector) : Bool :=
  c.diagnostics.any (·.severity.isError)

/-- The diagnostics, as the failure of the stage if there are errors among
them. -/
def finish (c : Collector) : Except (List Diagnostic) (List Diagnostic) :=
  if c.hasErrors then .error c.diagnostics else .ok c.diagnostics

@[simp] theorem hasErrors_empty : empty.hasErrors = false := rfl

@[simp] theorem hasErrors_emit (c : Collector) (d : Diagnostic) :
    (c.emit d).hasErrors = (c.hasErrors || d.severity.isError) := by
  simp [hasErrors, emit]

end Collector

end ModelText
