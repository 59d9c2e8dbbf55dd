/-!
# How much is told

A user says by the name of a level how much is to be told about the work. What
belongs to a level is told at that level and at all above it.
-/

namespace ModelText

/-- A level of telling, the most silent one first. -/
inductive Verbosity where
  | off
  | error
  | warning
  | info
  | debug
  | trace
  deriving DecidableEq, Inhabited

namespace Verbosity

/-- The level with a given name, in small or in capital letters. -/
def ofText? (name : String) : Option Verbosity :=
  match name.toLower with
  | "off" => some .off
  | "error" => some .error
  | "warn" => some .warning
  | "info" => some .info
  | "debug" => some .debug
  | "trace" => some .trace
  | _ => none

/-- How much a level tells. -/
def rank : Verbosity → Nat
  | .off => 0
  | .error => 1
  | .warning => 2
  | .info => 3
  | .debug => 4
  | .trace => 5

/-- Whether what belongs to the level `told` is told at the level `v`. -/
def tells (v told : Verbosity) : Bool := told.rank ≤ v.rank

end Verbosity

end ModelText
