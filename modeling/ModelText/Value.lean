import ModelText.Decimal.Writer
import ModelText.Text.Number
import ModelText.Text.Quoted

/-!
# Values

What a slot of an object can hold. A record is an object of its own, so the
value of a record slot names that object.
-/

namespace ModelText

/-- An object of a model, by its number in the order of creation. -/
structure ObjectId where
  /-- The number, counted from 0. -/
  index : Nat
  deriving DecidableEq, Inhabited

/-- An object's number as text. -/
def ObjectId.text (id : ObjectId) : String := Text.ofNat id.index

/-- A value of a slot. -/
inductive Value where
  /-- No value. -/
  | null
  | integer (value : Int64)
  | decimal (value : Decimal)
  | boolean (value : Bool)
  | string (content : String)
  /-- A literal of an enumeration, by name. -/
  | enumerated (literal : String)
  /-- An object of a record type. -/
  | record (object : ObjectId)
  deriving DecidableEq, Inhabited

namespace Value

/-- Whether there is no value. -/
def isNull : Value → Bool
  | .null => true
  | _ => false

/-- The integer, if the value is one. -/
def integer? : Value → Option Int64
  | .integer value => some value
  | _ => none

/-- The decimal, if the value is one. -/
def decimal? : Value → Option Decimal
  | .decimal value => some value
  | _ => none

/-- The truth value, if the value is one. -/
def boolean? : Value → Option Bool
  | .boolean value => some value
  | _ => none

/-- The string, if the value is one. -/
def string? : Value → Option String
  | .string content => some content
  | _ => none

/-- The name of the literal, if the value is one of an enumeration. -/
def enumerated? : Value → Option String
  | .enumerated literal => some literal
  | _ => none

/-- The record object, if the value is one. -/
def record? : Value → Option ObjectId
  | .record object => some object
  | _ => none

/-- A value as trees show it. -/
def text : Value → String
  | .null => "null"
  | .integer value => Text.ofInt value.toInt
  | .decimal value => value.text
  | .boolean value => if value then "true" else "false"
  | .string content => Text.quoted content
  | .enumerated literal => literal
  | .record object => "#" ++ object.text

end Value

end ModelText
