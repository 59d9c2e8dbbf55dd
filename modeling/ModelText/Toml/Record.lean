import ModelText.Toml.Basic

/-!
# Records in TOML

A record is written as a table of its fields, or as a list of their values in
the order of the fields. A field may be left out where the reader of the record
has a value for it; a field that the record does not have is refused, but what
a list has beyond the last field is not looked at.
-/

namespace ModelText.Toml

/-- The values that a record gives to its fields. -/
structure Record where
  /-- The value of a field, if it is given. -/
  get? : String → Option Toml

/-- A record with some fields. -/
def record? (fields : List String) : Toml → Option Record
  | .array items => some ⟨((fields.zip items).lookup ·)⟩
  | t => do
    let entries ← t.table?
    if entries.all fun entry => fields.contains entry.1 then
      return ⟨(entries.lookup ·)⟩
    else none

/-- The list of the values of items, if every item has one. -/
def list? {α : Type} (read : Toml → Option α) (t : Toml) : Option (List α) :=
  t.array?.bind (·.mapM read)

/-- The choice among named ones: its name, or a table of the name and nothing
else, with an empty value. -/
def choice? : Toml → Option String
  | .string name => some name
  | .table [(name, value)] => if value.isEmpty then some name else none
  | _ => none

namespace Record

/-- The value of a field that has to be given. -/
def required {α : Type} (r : Record) (field : String)
    (read : Toml → Option α) : Option α :=
  (r.get? field).bind read

/-- The value of a field that can be left out. -/
def optional {α : Type} (r : Record) (field : String) (default : α)
    (read : Toml → Option α) : Option α :=
  match r.get? field with
  | some value => read value
  | none => some default

end Record

end ModelText.Toml
