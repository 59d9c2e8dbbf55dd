import ModelText.Toml.Basic

/-!
# Tables that are being written

A TOML text fills its tables piece by piece, and there are rules on which table
can be taken up again. A `Draft` remembers how each table came to be: a table
with a header of its own has one header and is not filled from outside; a table
that only lies on the way of a header can still get its own; a table that came
with a dotted name is filled by dotted names alone. Lists and tables written in
one go are closed. A change that breaks a rule gives nothing.
-/

namespace ModelText

/-- How a table came to be. -/
inductive TableOrigin where
  /-- By a header of its own, or as the whole text. -/
  | header
  /-- On the way of the header of another table. -/
  | passage
  /-- On the way of a dotted name. -/
  | dotted
  deriving DecidableEq

/-- A value that is being written. -/
inductive Draft where
  /-- A value that is complete. -/
  | closed (value : Toml)
  | table (origin : TableOrigin) (entries : List (String × Draft))
  /-- A list of tables, each with a header. -/
  | tables (items : List (List (String × Draft)))

namespace Draft

/-- The entries of a table that is being written. -/
abbrev Entries := List (String × Draft)

/-- Gives a name another value, in place if it had one. -/
def setEntry (name : String) (value : Draft) : Entries → Entries
  | [] => [(name, value)]
  | (other, old) :: rest =>
    if other = name then (other, value) :: rest
    else (other, old) :: setEntry name value rest

/-- A change of the entries of a table of some origin. -/
abbrev Change := TableOrigin → Entries → Option Entries

/-- Makes a change in the table at the end of a path, and makes the tables on
the way that are not there. In a list of tables the way leads through the last
one. A dotted name does not lead into a table with a header. -/
def alterAt (dotted : Bool) (change : Change) : List String → Change
  | [], origin, entries => change origin entries
  | name :: rest, _, entries =>
    match entries.lookup name with
    | none => do
      let origin : TableOrigin := if dotted then .dotted else .passage
      let inner ← alterAt dotted change rest origin []
      return entries ++ [(name, .table origin inner)]
    | some (.table origin inner) =>
      if dotted && origin = .header then none
      else do
        let inner ← alterAt dotted change rest origin inner
        return setEntry name (.table origin inner) entries
    | some (.tables items) => do
      let last ← items.getLast?
      let last ← alterAt dotted change rest .header last
      return setEntry name (.tables (items.dropLast ++ [last])) entries
    | some (.closed _) => none

/-- Gives a name a value. A plain name belongs to a table that did not come
with a dotted one, and a dotted name to one that did. -/
def assign (path : List String) (name : String) (value : Toml) : Change :=
  alterAt true (fun origin entries =>
    if (origin == .dotted) == path.isEmpty then none
    else if (entries.lookup name).isSome then none
    else some (entries ++ [(name, .closed value)])) path

/-- Writes the header of a table. -/
def addHeader (path : List String) (name : String) : Change :=
  alterAt false (fun _ entries =>
    match entries.lookup name with
    | none => some (entries ++ [(name, .table .header [])])
    | some (.table .passage inner) =>
      some (setEntry name (.table .header inner) entries)
    | some _ => none) path

/-- Writes the header of one more table in a list of tables. -/
def addItemHeader (path : List String) (name : String) : Change :=
  alterAt false (fun _ entries =>
    match entries.lookup name with
    | none => some (entries ++ [(name, .tables [[]])])
    | some (.tables items) =>
      some (setEntry name (.tables (items ++ [[]])) entries)
    | some _ => none) path

mutual

/-- The value that was written. -/
def value : Draft → Toml
  | .closed value => value
  | .table _ entries => .table (entryValues entries)
  | .tables items => .array (itemValues items)

/-- The values that were written, with their names. -/
def entryValues : Entries → List (String × Toml)
  | [] => []
  | (name, draft) :: rest => (name, draft.value) :: entryValues rest

/-- The tables that were written in a list. -/
def itemValues : List Entries → List Toml
  | [] => []
  | entries :: rest => .table (entryValues entries) :: itemValues rest

end

end Draft

end ModelText
