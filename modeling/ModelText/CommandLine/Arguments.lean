/-!
# Arguments of the command line

The words of a command line are options, the values of options, and the names
of the units to compile. An option is written with two hyphens and its name or,
if it has a letter, with one hyphen and the letter; its value is the next word,
or stands in the same word, behind an equals sign or right behind the letter.
After two hyphens alone every word is the name of a unit.

A value is given to its option when it is known where the values end, which is
at the next option or at the end. So the first fault that is met from left to
right is not always the first one that was made.
-/

namespace ModelText

/-- What is wrong with a command line, or why it asks for something else. -/
inductive UsageFault where
  /-- No unit is named where one is needed. -/
  | missingRequired
  /-- An option has no value. -/
  | missingValue
  /-- A value for an option that has none. -/
  | needlessValue
  /-- There is no such option. -/
  | unknownOption
  /-- An option with one value is given twice. -/
  | repeatedOption
  /-- Help is asked for. -/
  | help
  /-- The version is asked for. -/
  | version
  deriving DecidableEq, Inhabited

/-- What a command line asks for. -/
structure Arguments where
  /-- The units to compile. -/
  entries : List String
  /-- The path of the metamodel. -/
  metamodel : Option String
  /-- The directory of the units. -/
  root : Option String
  /-- The path of the settings. -/
  config : Option String
  /-- How much is told about the work. -/
  logLevel : Option String
  /-- The languages whose types are to be listed. -/
  listTypes : List String
  deriving DecidableEq, Inhabited

namespace Arguments

/-- The arguments of an empty command line. -/
def empty : Arguments := ⟨[], none, none, none, none, []⟩

/-- The directory of the units, by default the current one. -/
def directory (a : Arguments) : String := a.root.getD "."

/-- An option with values. -/
inductive Setting where
  | metamodel
  | root
  | config
  | logLevel
  /-- The only option with several values. -/
  | listTypes
  deriving DecidableEq, Inhabited

/-- An option. -/
inductive Switch where
  | setting (setting : Setting)
  | help
  | version
  deriving DecidableEq, Inhabited

/-- The option with a given name. -/
def Switch.ofName? : String → Option Switch
  | "metamodel" => some (.setting .metamodel)
  | "root" => some (.setting .root)
  | "config" => some (.setting .config)
  | "log-level" => some (.setting .logLevel)
  | "list-types" => some (.setting .listTypes)
  | "help" => some .help
  | "version" => some .version
  | _ => none

/-- The option with a given letter. -/
def Switch.ofLetter? : Char → Option Switch
  | 'm' => some (.setting .metamodel)
  | 'r' => some (.setting .root)
  | 'c' => some (.setting .config)
  | 'h' => some .help
  | 'V' => some .version
  | _ => none

/-- What words are collected for. -/
inductive Target where
  | setting (setting : Setting)
  /-- The units to compile. -/
  | entries
  deriving DecidableEq, Inhabited

/-- What has been read of a command line. -/
structure Reading where
  /-- What is settled. -/
  arguments : Arguments
  /-- Words that are collected and not yet settled. -/
  pending : Option (Target × List String)
  /-- Whether the next word is a value of the option for which words are
  collected. -/
  awaiting : Bool

/-- Gives an option with one value its value. -/
def setOnce (old : Option String) (values : List String) :
    Except UsageFault (Option String) :=
  match old with
  | some _ => .error .repeatedOption
  | none => .ok values.getLast?

/-- Gives an option its values. -/
def set (a : Arguments) (values : List String) :
    Setting → Except UsageFault Arguments
  | .metamodel => do return { a with metamodel := ← setOnce a.metamodel values }
  | .root => do return { a with root := ← setOnce a.root values }
  | .config => do return { a with config := ← setOnce a.config values }
  | .logLevel => do return { a with logLevel := ← setOnce a.logLevel values }
  | .listTypes => .ok { a with listTypes := a.listTypes ++ values }

namespace Reading

/-- Settles the words that were collected. -/
def settle (r : Reading) : Except UsageFault Reading := do
  match r.pending with
  | none => return r
  | some (_, []) => throw .missingValue
  | some (.entries, values) =>
    let entries := r.arguments.entries ++ values
    return ⟨{ r.arguments with entries := entries }, none, false⟩
  | some (.setting setting, values) =>
    return ⟨← r.arguments.set values setting, none, false⟩

/-- Reads an option, whose value may stand in the same word. -/
def option (r : Reading) (switch : Switch) (value : Option String) :
    Except UsageFault Reading := do
  match switch, value with
  | .setting setting, none =>
    let r ← r.settle
    return { r with pending := some (.setting setting, []), awaiting := true }
  | .setting setting, some value =>
    let r ← r.settle
    settle { r with pending := some (.setting setting, [value]) }
  | _, some _ => throw .needlessValue
  | .help, none =>
    let _ ← r.settle
    throw .help
  | .version, none =>
    let _ ← r.settle
    throw .version

/-- Reads the name of a unit. -/
def entry (r : Reading) (word : String) : Except UsageFault Reading := do
  match r.pending with
  | some (.entries, values) =>
    return { r with pending := some (.entries, values ++ [word]) }
  | _ =>
    let r ← r.settle
    return { r with pending := some (.entries, [word]), awaiting := false }

/-- Reads a word that is not an option: a value if one is expected, and else
the name of a unit. -/
def word (r : Reading) (word : String) : Except UsageFault Reading :=
  match r.awaiting, r.pending with
  | true, some (target, values) =>
    .ok { r with
      pending := some (target, values ++ [word])
      awaiting := target = .setting .listTypes }
  | _, _ => r.entry word

/-- Reads a word that begins with two hyphens, from behind them. -/
def longOption (r : Reading) (cs : List Char) : Except UsageFault Reading :=
  let name := cs.takeWhile (· ≠ '=')
  let value := match cs.dropWhile (· ≠ '=') with
    | '=' :: value => some (String.ofList value)
    | _ => none
  match Switch.ofName? (String.ofList name) with
  | some switch => r.option switch value
  | none => .error .unknownOption

/-- The value that stands behind the letter of an option with values. -/
def attached? : List Char → Option String
  | [] => none
  | '=' :: value => some (String.ofList value)
  | value => some (String.ofList value)

/-- Reads a word that begins with one hyphen: the letter behind it, and what
follows the letter. -/
def shortOption (r : Reading) (letter : Char) (rest : List Char) :
    Except UsageFault Reading :=
  match Switch.ofLetter? letter with
  | none => .error .unknownOption
  | some (.setting setting) => r.option (.setting setting) (attached? rest)
  | some switch => r.option switch none

/-- Reads words; `onlyEntries` if two hyphens alone came before. -/
def words (onlyEntries : Bool) : Reading → List String →
    Except UsageFault Reading
  | r, [] => r.settle
  | r, word :: rest => do
    if onlyEntries then words true (← r.entry word) rest
    else match word.toList with
      | ['-', '-'] => words true r rest
      | '-' :: '-' :: cs => words false (← r.longOption cs) rest
      | '-' :: letter :: cs => words false (← r.shortOption letter cs) rest
      | _ => words false (← r.word word) rest

end Reading

/-- The arguments of a command line. Units have to be named unless the types of
languages are to be listed. -/
def ofWords (words : List String) : Except UsageFault Arguments := do
  let r ← Reading.words false ⟨empty, none, false⟩ words
  if r.arguments.entries.isEmpty && r.arguments.listTypes.isEmpty then
    throw .missingRequired
  return r.arguments

end Arguments

end ModelText
