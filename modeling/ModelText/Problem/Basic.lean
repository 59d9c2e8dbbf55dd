import ModelText.Diagnostic.Basic
import ModelText.Text.Position

/-!
# Problems

A `Problem` is a diagnostic of a named unit together with the position a reader
looks up: the line and column where the primary label of the diagnostic starts,
or nothing if the unit as a whole is meant.
-/

namespace ModelText

/-- A diagnostic and the unit it is about. Line and column are counted from 1;
both are 0 for a problem of the unit as a whole. -/
structure Problem where
  /-- The name of the unit. -/
  source : String
  /-- The line. -/
  line : Nat
  /-- The column, in characters. -/
  column : Nat
  /-- What is wrong. -/
  diagnostic : Diagnostic
  deriving DecidableEq

namespace Problem

/-- A problem of a unit as a whole. -/
def ofUnit (source : String) (diagnostic : Diagnostic) : Problem :=
  ⟨source, 0, 0, diagnostic⟩

/-- A problem at a position. -/
def ofPosition (source : String) (position : Position)
    (diagnostic : Diagnostic) : Problem :=
  ⟨source, position.line, position.column, diagnostic⟩

/-- A problem at the start of the primary label of its diagnostic, in the text
of the unit; without a primary label it is one of the unit as a whole. -/
def locate (source text : String) (diagnostic : Diagnostic) : Problem :=
  match diagnostic.primarySpan? with
  | some span =>
    ofPosition source (Position.ofOffset text span.start) diagnostic
  | none => ofUnit source diagnostic

/-- How grave the problem is. -/
def severity (p : Problem) : Severity := p.diagnostic.severity

/-- A problem on one line. -/
def text (p : Problem) : String :=
  if p.line = 0 then p.source ++ ": " ++ p.diagnostic.text
  else p.source ++ ":" ++ Text.ofNat p.line ++ ":" ++ Text.ofNat p.column ++
    ": " ++ p.diagnostic.text

@[simp] theorem source_locate (source text : String) (d : Diagnostic) :
    (locate source text d).source = source := by
  unfold locate
  split <;> rfl

@[simp] theorem diagnostic_locate (source text : String) (d : Diagnostic) :
    (locate source text d).diagnostic = d := by
  unfold locate
  split <;> rfl

end Problem

end ModelText
