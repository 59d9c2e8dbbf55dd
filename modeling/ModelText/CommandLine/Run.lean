import ModelText.CommandLine.Arguments
import ModelText.CommandLine.Report
import ModelText.Compilation.Settings
import ModelText.Metamodel.Checking
import ModelText.Metamodel.SchemaText
import ModelText.Source.Directory

/-!
# What a command line does

A run finds its settings, reads the metamodel, and then either lists types or
compiles units from a directory. `Environment.run` is a function of the files
that there are.

The settings are in the file that the command line names, or in the first of
the usual files that there is, or they are those where nothing is said. The
metamodel is in the file that the command line names, or else in the one that
the settings name.
-/

namespace ModelText

/-- What a run is surrounded by. -/
structure Environment where
  /-- The files. -/
  files : Files
  /-- Where the settings of the user are, if the user has a place for them. -/
  userSettings : Option String

/-- Why there are no settings. -/
inductive SettingsFault where
  /-- There is nothing at the path that the command line gives. -/
  | missing (path : String)
  /-- The file gives no text. -/
  | unreadable (fault : FileFault)
  /-- The text stands for no settings. -/
  | malformed
  deriving DecidableEq

/-- The reason in words. -/
def SettingsFault.message : SettingsFault → String
  | .missing path => "Missing configuration file: " ++ path
  | .unreadable fault => fault.message
  | .malformed => "Failed to parse TOML configuration"

/-- Why there is no catalog. -/
inductive MetamodelFault where
  /-- The file gives no text. -/
  | unreadable (path : String) (fault : FileFault)
  /-- The text stands for no schema. -/
  | malformed
  /-- The schema stands for no catalog. -/
  | invalid (fault : CatalogError)
  deriving DecidableEq

/-- The reason in words. -/
def MetamodelFault.message : MetamodelFault → String
  | .unreadable path fault =>
    "failed to read metamodel `" ++ path ++ "`: " ++ fault.message
  | .malformed => "invalid metamodel schema"
  | .invalid fault => fault.message

/-- Why a run has no outcome. -/
inductive RunFault where
  | settings (fault : SettingsFault)
  | metamodel (fault : MetamodelFault)
  /-- Neither the command line nor the settings name a metamodel. -/
  | noMetamodel
  | compile (fault : CompileError)
  deriving DecidableEq

namespace RunFault

/-- The reason in words. -/
def message : RunFault → String
  | .settings fault => "I/O error: " ++ fault.message
  | .metamodel fault => "Metamodel error: " ++ fault.message
  | .noMetamodel => "No metamodel configured"
  | .compile fault => fault.message

/-- The code of a kind of faults. -/
def code : RunFault → String
  | .settings _ => "simon::io"
  | .metamodel _ => "simon::metamodel"
  | .noMetamodel => "simon::no_metamodel"
  | .compile .noEntryPoints => "simon::no_entry_points"

/-- An advice. -/
def help? : RunFault → Option String
  | .noMetamodel =>
    some "pass `--metamodel <FILE>` or set `path` in the `[metamodel]` section"
  | _ => none

end RunFault

/-- What comes of a run. -/
inductive Outcome where
  /-- Types, a line for each of them. -/
  | types (lines : List String)
  /-- A compilation. -/
  | report (report : Report)

/-- The path of the settings of a project. -/
def projectSettings : String := "simon/config.toml"

namespace Environment

/-- The usual paths of settings. -/
def usualSettings (e : Environment) : List String :=
  projectSettings :: e.userSettings.toList

/-- The settings in a file. -/
def readSettings (e : Environment) (path : String) :
    Except SettingsFault Settings := do
  unless e.files.isPresent path do throw (.missing path)
  let text ← (e.files.readText path).mapError .unreadable
  match Settings.ofText? text with
  | some settings => return settings
  | none => throw .malformed

/-- The path of the settings, if there are any. -/
def settingsPath? (e : Environment) (a : Arguments) : Option String :=
  a.config.orElse fun _ => e.usualSettings.find? e.files.isPresent

/-- The settings of a run. -/
def settings (e : Environment) (a : Arguments) :
    Except SettingsFault Settings :=
  match e.settingsPath? a with
  | some path => e.readSettings path
  | none => .ok .default

/-- The catalog in a file. -/
def readCatalog (e : Environment) (path : String) :
    Except MetamodelFault Catalog := do
  let text ← (e.files.readText path).mapError (.unreadable path)
  match Schema.ofText? text with
  | some schema => schema.catalog.mapError .invalid
  | none => throw .malformed

/-- The path of the metamodel, if it has one. -/
def metamodelPath? (a : Arguments) (s : Settings) : Option String :=
  a.metamodel.orElse fun _ => s.metamodelPath

/-- The settings and the catalog of a run. -/
def prepare (e : Environment) (a : Arguments) :
    Except RunFault (Settings × Catalog) :=
  match e.settings a with
  | .error fault => .error (.settings fault)
  | .ok settings =>
    match metamodelPath? a settings with
    | none => .error .noMetamodel
    | some path =>
      match e.readCatalog path with
      | .error fault => .error (.metamodel fault)
      | .ok catalog => .ok (settings, catalog)

/-- The directory of the units. -/
def directory (a : Arguments) (s : Settings) : UnitDirectory :=
  ⟨a.directory, s.compiler.sourceExtension⟩

/-- Compiles the units that the command line names. -/
def compile (e : Environment) (a : Arguments) : Except RunFault Report := do
  let (settings, catalog) ← e.prepare a
  let sources := (directory a settings).sources e.files
  let compilation ← (ModelText.compile catalog.metamodel settings.compiler
    a.entries sources).mapError .compile
  return ⟨compilation, catalog.builtIns.sources.orElse sources⟩

/-- A type as it is listed. -/
def typeLine (t : TypeInfo) : String := t.name ++ " (" ++ t.kindName ++ ")"

/-- Lists the types of the languages that the command line names; a language
that is not declared has none. -/
def typeLines (e : Environment) (a : Arguments) :
    Except RunFault (List String) := do
  let (_, catalog) ← e.prepare a
  let languages := NameSet.ofList (a.listTypes.filter catalog.hasLanguage)
  return (catalog.visibleTypes languages).map typeLine

/-- Does what the command line asks for: lists types if languages are named for
that, and compiles otherwise. -/
def run (e : Environment) (a : Arguments) : Except RunFault Outcome :=
  if a.listTypes.isEmpty then (e.compile a).map .report
  else (e.typeLines a).map .types

/-- The paths at which a run looks for files, as far as the files that there
are let it come. -/
def consulted (e : Environment) (a : Arguments) : List String :=
  a.config.toList ++ e.usualSettings ++
    match e.settings a with
    | .error _ => []
    | .ok settings => (metamodelPath? a settings).toList ++
      match e.compile a with
      | .error _ => []
      | .ok report => report.compilation.results.flatMap fun unit =>
        let d := directory a settings
        [Path.join d.root unit.source, d.dottedPath unit.source]

end Environment

end ModelText
