import ModelText.Text.Number
import ModelText.Text.Span

/-!
# Diagnostics

A `Diagnostic` is what a reader is told about one fault of a source unit: how
grave it is, what kind of fault it is, a message, the places it points at, and
perhaps an advice. The stages of the compiler describe their faults by types of
their own; this module holds the form in which all of them are told.
-/

namespace ModelText

/-- How grave a fault is. A warning leaves the model as good as it was, an
error is recorded and the work goes on, a fatal fault ends the work on its
unit. -/
inductive Severity where
  | warning
  | error
  | fatal
  deriving DecidableEq, Inhabited

namespace Severity

/-- Whether the unit's model can no longer be trusted. -/
def isError : Severity → Bool
  | .warning => false
  | .error => true
  | .fatal => true

/-- Whether the work on the unit ends. -/
def isFatal : Severity → Bool
  | .fatal => true
  | _ => false

/-- Whether the fault is only remarked. -/
def isWarning : Severity → Bool
  | .warning => true
  | _ => false

theorem not_isWarning (s : Severity) : (!s.isWarning) = s.isError := by
  cases s <;> rfl

/-- The place in the order from least to most grave. -/
def rank : Severity → Nat
  | .warning => 0
  | .error => 1
  | .fatal => 2

/-- The word that messages begin with. -/
def text : Severity → String
  | .warning => "warning"
  | .error => "error"
  | .fatal => "fatal"

end Severity

/-- The kind of a fault. -/
inductive Category where
  | unspecified
  | internal
  | syntaxError
  | missingElement
  | unknownElement
  | abstractElement
  | missingFeature
  | elementAdmitsNoFeatures
  | unresolvedName
  | typeError
  deriving DecidableEq, Inhabited

namespace Category

/-- The code of a kind. The first digit tells the stage: unclassified faults,
the form of a text, the construction of elements, the resolution of names. -/
def code : Category → String
  | .unspecified => "S000"
  | .internal => "S001"
  | .syntaxError => "S100"
  | .missingElement => "S200"
  | .unknownElement => "S201"
  | .abstractElement => "S202"
  | .missingFeature => "S203"
  | .elementAdmitsNoFeatures => "S204"
  | .unresolvedName => "S300"
  | .typeError => "S301"

/-- A kind in words. -/
def description : Category → String
  | .unspecified => "unspecified problem"
  | .internal => "internal compiler error"
  | .syntaxError => "syntax error"
  | .missingElement => "missing element"
  | .unknownElement => "unknown element type"
  | .abstractElement => "element type is not instantiable"
  | .missingFeature => "unknown feature"
  | .elementAdmitsNoFeatures => "element admits no features"
  | .unresolvedName => "unresolved name"
  | .typeError => "type error"

/-- All kinds, in the order of their codes. -/
def all : List Category :=
  [.unspecified, .internal, .syntaxError, .missingElement, .unknownElement,
    .abstractElement, .missingFeature, .elementAdmitsNoFeatures,
    .unresolvedName, .typeError]

/-- The kind with a given code. -/
def ofCode? (code : String) : Option Category := all.find? (·.code = code)

end Category

/-- A place in the text and what is to be said about it. The primary labels
mark the fault, the others what has to do with it. -/
structure Label where
  /-- The place. -/
  span : Span
  /-- What is written beside it. -/
  message : String
  /-- Whether the label marks the fault itself. -/
  isPrimary : Bool
  deriving DecidableEq

/-- What is told about one fault. -/
structure Diagnostic where
  /-- How grave the fault is. -/
  severity : Severity
  /-- What kind of fault it is. -/
  category : Category
  /-- The fault in words. -/
  message : String
  /-- The places it points at. -/
  labels : List Label
  /-- An advice. -/
  help : Option String
  deriving DecidableEq

namespace Diagnostic

/-- A diagnostic that points at one place, without advice. -/
def labelled (severity : Severity) (category : Category) (message : String)
    (span : Span) (label : String) : Diagnostic where
  severity := severity
  category := category
  message := message
  labels := [⟨span, label, true⟩]
  help := none

/-- Adds an advice. -/
def withHelp (d : Diagnostic) (help : String) : Diagnostic :=
  { d with help := some help }

/-- Points at one more place. -/
def withLabel (d : Diagnostic) (label : Label) : Diagnostic :=
  { d with labels := d.labels ++ [label] }

/-- The place of the first primary label. -/
def primarySpan? (d : Diagnostic) : Option Span :=
  (d.labels.find? (·.isPrimary)).map (·.span)

/-- The labels that are not primary. -/
def secondaryLabels (d : Diagnostic) : List Label :=
  d.labels.filter (!·.isPrimary)

/-- A diagnostic on one line. -/
def text (d : Diagnostic) : String :=
  d.severity.text ++ "[" ++ d.category.code ++ "]: " ++ d.message

/-- The first of several diagnostics, and how many follow it. -/
def summary : List Diagnostic → String
  | [] => ""
  | [d] => d.text
  | d :: rest => d.text ++ " (+" ++ Text.ofNat rest.length ++ " more)"

end Diagnostic

end ModelText
