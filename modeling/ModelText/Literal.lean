import ModelText.Decimal.Writer
import ModelText.Text.Number
import ModelText.Text.Quoted
import ModelText.Text.Span

/-!
# Literals

The values that a source unit writes down: numbers, truth values, strings,
names of enumerated values, and records of named literals. `Literal.text` writes
a literal back in a fixed spelling.
-/

namespace ModelText

mutual

/-- A value as it is written in a source unit. -/
inductive Literal where
  | integer (value : Int64)
  | decimal (value : Decimal)
  | boolean (value : Bool)
  /-- A string, with its escapes resolved. -/
  | string (content : String)
  /-- A bare name, such as the name of an enumerated value. -/
  | identifier (name : String)
  | record (fields : List Field)

/-- A named literal of a record. -/
structure Field where
  /-- The name of the field. -/
  name : Spanned String
  /-- Its literal. -/
  value : Spanned Literal

end

namespace Literal

/-- The kind of a literal, in the words of messages. -/
def kindName : Literal → String
  | .integer _ => "integer"
  | .decimal _ => "decimal"
  | .boolean _ => "boolean"
  | .string _ => "string"
  | .identifier _ => "identifier"
  | .record _ => "record"

/-- A truth value as it is written. -/
def booleanText (value : Bool) : String := if value then "true" else "false"

mutual

/-- Writes a literal. Records list their fields between blanks. -/
def text : Literal → String
  | .integer value => Text.ofInt value.toInt
  | .decimal value => value.text
  | .boolean value => booleanText value
  | .string content => Text.quoted content
  | .identifier name => name
  | .record fields => "#(" ++ " ".intercalate (fieldTexts fields) ++ ")"

/-- Writes each field of a record. -/
def fieldTexts : List Field → List String
  | [] => []
  | ⟨name, ⟨value, _⟩⟩ :: rest =>
    (name.value ++ " = " ++ value.text) :: fieldTexts rest

end

end Literal

end ModelText
