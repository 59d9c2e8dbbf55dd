import ModelText.Toml.Draft
import ModelText.Toml.Scalar

/-!
# Reading TOML

A TOML text is a list of lines: names with their values, and headers that name
the table to which the names below them belong. Lists and tables in brackets
can go over several lines and can end with a comma. `Toml.ofText?` gives the
table that a text stands for; it has nothing to say about why a text stands for
none. Brackets can stand inside of brackets, and a name can have parts, but not
without end: there is a limit to both.

Where the reader goes one step further into a text it takes a character at
least in every second step, which bounds the steps.
-/

namespace ModelText.Toml

/-- Leaves out blanks. -/
def dropBlanks (cs : List Char) : List Char :=
  cs.dropWhile fun c => c = ' ' || c = '\t'

/-- Leaves out blanks, ends of lines and comments. -/
def dropLines (inComment : Bool) : List Char → List Char
  | [] => []
  | '\r' :: '\n' :: rest => dropLines false rest
  | '\n' :: rest => dropLines false rest
  | c :: rest =>
    if inComment && isText c then dropLines true rest
    else if c = '#' then dropLines true rest
    else if c = ' ' || c = '\t' then dropLines false rest
    else c :: rest

/-- Leaves out what can stand beside a sign: in brackets also ends of lines and
comments, elsewhere blanks alone. -/
def dropGap (inBrackets : Bool) (cs : List Char) : List Char :=
  if inBrackets then dropLines false cs else dropBlanks cs

/-- Whether a line ends here, or a comment is all that is left of it. -/
def atLineEnd (cs : List Char) : Bool :=
  cs.isEmpty || atLineBreak cs || cs.head? = some '#'

/-- Reads a name. -/
def readName (cs : List Char) : Option (String × List Char) :=
  match cs with
  | '"' :: rest => finish (escapedContent false rest)
  | '\'' :: rest => finish (plainContent false rest)
  | cs =>
    let isBare (c : Char) := c.isAlphanum || c = '_' || c = '-'
    let name := cs.takeWhile isBare
    if name.isEmpty then none
    else some (String.ofList name, cs.dropWhile isBare)
where
  /-- The name from its characters. -/
  finish (found : Option (List Char × List Char)) :
      Option (String × List Char) :=
    found.map fun (cs, rest) => (String.ofList cs, rest)

/-- A dotted name: the path to the table, and the name in it. -/
structure DottedName where
  /-- The path to the table. -/
  path : List String
  /-- The name in the table. -/
  name : String

/-- The largest number of parts of a dotted name. -/
def mostParts : Nat := 80

/-- Reads the parts of a dotted name and the blanks around them. -/
def readParts : Nat → List Char → Option (DottedName × List Char)
  | 0, _ => none
  | steps + 1, cs => do
    let (name, rest) ← readName (dropBlanks cs)
    match dropBlanks rest with
    | '.' :: rest =>
      let (⟨path, last⟩, rest) ← readParts steps rest
      return (⟨name :: path, last⟩, rest)
    | rest => return (⟨[], name⟩, rest)

/-- Reads a dotted name and the blanks around it. -/
def readDottedName (steps : Nat) (cs : List Char) :
    Option (DottedName × List Char) :=
  (readParts steps cs).filter fun found => found.1.path.length < mostParts

/-- The largest number of lists and tables in brackets that stand one in the
other. -/
def deepestNesting : Nat := 80

mutual

/-- Reads a value in which some number of brackets can stand one in the
other. -/
def readValue : Nat → Nat → List Char → Option (Toml × List Char)
  | 0, _, _ => none
  | steps + 1, nesting, cs =>
    match cs, nesting with
    | '[' :: _, 0 => none
    | '[' :: rest, nesting + 1 => do
      let (items, rest) ← readItems steps nesting rest
      return (.array items, rest)
    | '\x7b' :: _, 0 => none
    | '\x7b' :: rest, nesting + 1 => do
      let (entries, rest) ← readEntries steps nesting [] rest
      return (.table (Draft.entryValues entries), rest)
    | cs, _ =>
      if cs.head? = some '"' || cs.head? = some '\'' then do
        let (content, rest) ← readString cs
        return (.string content, rest)
      else do
        let (word, rest) := cutWord cs
        return (← word? word, rest)

/-- Reads the rest of a list, from its beginning or from a comma on. -/
def readItems : Nat → Nat → List Char → Option (List Toml × List Char)
  | 0, _, _ => none
  | steps + 1, nesting, cs =>
    match dropLines false cs with
    | ']' :: rest => some ([], rest)
    | cs => do
      let (item, rest) ← readValue steps nesting cs
      match dropLines false rest with
      | ',' :: rest =>
        let (items, rest) ← readItems steps nesting rest
        return (item :: items, rest)
      | ']' :: rest => return ([item], rest)
      | _ => none

/-- Reads the rest of a table in brackets, from its beginning or from a comma
on; the entries so far are given. -/
def readEntries : Nat → Nat → Draft.Entries → List Char →
    Option (Draft.Entries × List Char)
  | 0, _, _, _ => none
  | steps + 1, nesting, entries, cs =>
    match dropLines false cs with
    | '\x7d' :: rest => some (entries, rest)
    | cs => do
      let ((name, value), rest) ← readPair steps nesting true cs
      let entries ← Draft.assign name.path name.name value .header entries
      match dropLines false rest with
      | ',' :: rest => readEntries steps nesting entries rest
      | '\x7d' :: rest => return (entries, rest)
      | _ => none

/-- Reads a name and its value, in brackets or on a line. -/
def readPair : Nat → Nat → Bool → List Char →
    Option ((DottedName × Toml) × List Char)
  | 0, _, _, _ => none
  | steps + 1, nesting, inBrackets, cs => do
    let (name, rest) ← readDottedName steps cs
    match dropGap inBrackets rest with
    | '=' :: rest =>
      let (value, rest) ← readValue steps nesting (dropGap inBrackets rest)
      return ((name, value), rest)
    | _ => none

end

/-- Reads a header: whether it is one of a list of tables, and its name. -/
def readHeader (steps : Nat) :
    List Char → Option ((Bool × DottedName) × List Char)
  | '[' :: '[' :: rest => do
    let (name, rest) ← readDottedName steps rest
    match rest with
    | ']' :: ']' :: rest => return ((true, name), rest)
    | _ => none
  | '[' :: rest => do
    let (name, rest) ← readDottedName steps rest
    match rest with
    | ']' :: rest => return ((false, name), rest)
    | _ => none
  | _ => none

/-- Reads lines; the path leads to the table of the last header. -/
def readLines : Nat → List String → Draft.Entries → List Char →
    Option Draft.Entries
  | 0, _, _, _ => none
  | steps + 1, path, entries, cs =>
    match dropLines false cs with
    | [] => some entries
    | '[' :: rest => do
      let ((isItem, ⟨outer, name⟩), rest) ← readHeader steps ('[' :: rest)
      let add := if isItem then Draft.addItemHeader else Draft.addHeader
      let entries ← add outer name .header entries
      if atLineEnd (dropBlanks rest) then
        readLines steps (outer ++ [name]) entries rest
      else none
    | cs => do
      let ((name, value), rest) ← readPair steps deepestNesting false cs
      let assign := Draft.assign name.path name.name value
      let entries ← Draft.alterAt false assign path .header entries
      if atLineEnd (dropBlanks rest) then readLines steps path entries rest
      else none

/-- The table that a text stands for. A mark of the byte order in front of the
text does not belong to it. -/
def ofText? (text : String) : Option Toml := do
  let cs := match text.toList with
    | '\ufeff' :: cs => cs
    | cs => cs
  let entries ← readLines (2 * cs.length + 4) [] [] cs
  return .table (Draft.entryValues entries)

end ModelText.Toml
