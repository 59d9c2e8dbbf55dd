import ModelText.Compilation.Result
import ModelText.Graph.Outline

/-!
# Reports

What a user is shown of a compilation: the outlines of the roots, unit by unit,
and a notice of each problem. A notice shows the labels of its problem in the
text of the unit, so without the text it shows none of them.
-/

namespace ModelText

/-- A problem and the text of its unit, if the unit has one. -/
structure Notice where
  /-- The problem. -/
  problem : Problem
  /-- The text of the unit. -/
  text : Option String
  deriving DecidableEq

namespace Notice

/-- What the notice says. It names the unit if neither a text nor a position
does. -/
def message (n : Notice) : String :=
  if n.text.isNone && n.problem.line = 0 then
    n.problem.source ++ ": " ++ n.problem.diagnostic.message
  else n.problem.diagnostic.message

/-- The labels that can be shown. -/
def labels (n : Notice) : List Label :=
  match n.text with
  | some _ => n.problem.diagnostic.labels
  | none => []

/-- Whether the notice is of a warning. -/
def isWarning (n : Notice) : Bool := n.problem.severity.isWarning

end Notice

/-- The outlines of the roots of a unit, under its name. -/
def UnitResult.outlineText (r : UnitResult) (g : Graph) : String :=
  if r.roots.isEmpty then ""
  else "== " ++ r.source ++ " ==\n" ++ String.join (r.roots.map g.outlineText)

/-- A compilation and the texts it was made from. -/
structure Report where
  /-- The compilation. -/
  compilation : Compilation
  /-- The texts of the units. -/
  sources : Sources

namespace Report

/-- Whether a unit has errors. -/
def hasErrors (r : Report) : Bool := r.compilation.hasErrors

/-- The outlines of all roots. -/
def outlineText (r : Report) : String :=
  String.join
    (r.compilation.results.map (·.outlineText r.compilation.graph))

/-- The notices of all problems, in their order. -/
def notices (r : Report) : List Notice :=
  r.compilation.problems.map fun problem =>
    ⟨problem, r.sources.fetch problem.source⟩

/-- The notices of warnings. -/
def warnings (r : Report) : List Notice := r.notices.filter (·.isWarning)

/-- The notices of errors. -/
def errors (r : Report) : List Notice := r.notices.filter (!·.isWarning)

/-- There are notices of errors just if a unit has errors. -/
theorem errors_eq_nil_iff (r : Report) :
    r.errors = [] ↔ r.hasErrors = false := by
  simp only [errors, notices, hasErrors, Compilation.hasErrors,
    Compilation.problems, UnitResult.hasErrors, List.filter_eq_nil_iff,
    List.any_eq_false, List.any_eq_true, List.forall_mem_map, List.mem_flatMap,
    Notice.isWarning, Severity.not_isWarning, Problem.severity]
  grind

end Report

end ModelText
