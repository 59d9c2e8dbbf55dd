import ModelText.Decimal.Basic
import ModelText.Toml.Moment

/-!
# Values of a TOML text

What a TOML text says, when it has been read: named values, which are texts,
numbers, truth values, moments, lists of values, or tables of named values.
Nothing here has a use for a moment as such; where a table is asked for it
counts as one, with its text under a name that no one would choose.
-/

namespace ModelText

/-- A value of a TOML text. -/
inductive Toml where
  | string (content : String)
  /-- An integer; how large it may be is left to the one who uses it. -/
  | integer (value : Int)
  | decimal (value : Decimal)
  /-- A decimal too large for any value but the infinite one. It can be
  written, but it has no use. -/
  | overflow
  | boolean (value : Bool)
  | moment (value : Moment)
  | array (items : List Toml)
  /-- Values by name; no name occurs twice. -/
  | table (entries : List (String × Toml))

namespace Toml

/-- The text, if the value is one. -/
def string? : Toml → Option String
  | .string content => some content
  | _ => none

/-- The truth value, if the value is one. -/
def boolean? : Toml → Option Bool
  | .boolean value => some value
  | _ => none

/-- The items, if the value is a list. -/
def array? : Toml → Option (List Toml)
  | .array items => some items
  | _ => none

/-- The name of the text of a moment, where a table is asked for. -/
def momentName : String := "$__toml_private_datetime"

/-- The entries, if the value is a table; a moment counts as one. -/
def table? : Toml → Option (List (String × Toml))
  | .table entries => some entries
  | .moment value => some [(momentName, .string value.text)]
  | _ => none

/-- Whether the value is a list or a table with nothing in it. -/
def isEmpty : Toml → Bool
  | .array items => items.isEmpty
  | .table entries => entries.isEmpty
  | _ => false

end Toml

end ModelText
