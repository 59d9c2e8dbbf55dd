import ModelText.CommandLine.Run
import ModelText.CommandLine.Verbosity

/-!
# The program

The program reads its command line, looks up the files that a run consults
until it consults no further ones, and shows the outcome of the run: outlines
and types in the output, notices and faults beside it.
-/

namespace ModelText.Program

/-- What is told of the command line itself. -/
def usage : String :=
  "Usage: simon [OPTIONS] <ENTRIES>...\n\n" ++
  "  -m, --metamodel <FILE>     the metamodel\n" ++
  "  -r, --root <DIR>           the directory of the units\n" ++
  "  -c, --config <FILE>        the settings\n" ++
  "      --log-level <LEVEL>    off, error, warn, info, debug or trace\n" ++
  "      --list-types <LANG>... list the types of languages\n" ++
  "  -h, --help                 show this text\n" ++
  "  -V, --version              show the version"

/-- The version. -/
def version : String := "simon 0.1.0"

/-- What is told of a command line that is at fault. -/
def faultText : UsageFault → String
  | .missingRequired => "no unit is named"
  | .missingValue => "an option has no value"
  | .needlessValue => "an option has a value that it does not take"
  | .unknownOption => "there is no such option"
  | .repeatedOption => "an option is given twice"
  | .help => usage
  | .version => version

/-- The content of a file. -/
def readContent (path : String) : IO (Except FileFault ByteArray) := do
  if path.toList.contains '\x00' then return .error .zeroInPath
  try return .ok (← IO.FS.readBinFile path)
  catch
    | .permissionDenied .. => return .error .denied
    | .invalidArgument .. => return .error .nameTooLong
    | .inappropriateType _ code _ =>
      return .error (if code = 21 then .isDirectory else .notDirectory)
    | _ => return .error .missing

/-- Looks up the files that a run consults. -/
partial def gather (userSettings : Option String) (a : Arguments)
    (found : List (String × Except FileFault ByteArray)) : IO Environment := do
  let e : Environment := ⟨.ofList found, userSettings⟩
  let paths := (e.consulted a).filter fun path => (found.lookup path).isNone
  if paths.isEmpty then return e
  let more ← paths.eraseDups.mapM fun path => return (path, ← readContent path)
  gather userSettings a (found ++ more)

/-- Where the settings of the user are. -/
def userSettings : IO (Option String) := do
  let directory ← IO.getEnv "XDG_CONFIG_HOME"
  let home ← IO.getEnv "HOME"
  let directory := (directory.filter Path.isAbsolute).orElse fun _ =>
    home.map (Path.join · ".config")
  return directory.map (Path.join · projectSettings)

/-- Shows notices beside the output. -/
def showNotices (notices : List Notice) : IO Unit :=
  notices.forM fun notice => do
    IO.eprintln notice.problem.text
    for help in notice.problem.diagnostic.help do
      IO.eprintln ("  help: " ++ help)

/-- Shows the fault of a run beside the output. -/
def showFault (v : Verbosity) (fault : RunFault) : IO Unit := do
  if v.tells .error then
    IO.eprintln (fault.code ++ ": " ++ fault.message)
    for help in fault.help? do
      IO.eprintln ("  help: " ++ help)

/-- Shows the outcome of a run; the result is 1 if something is wrong. -/
def showOutcome (v : Verbosity) : Except RunFault Outcome → IO UInt32
  | .error fault => do
    showFault v fault
    return 1
  | .ok (.types lines) => do
    lines.forM fun line => IO.println line
    return 0
  | .ok (.report report) => do
    IO.print report.outlineText
    if v.tells .warning then showNotices report.warnings
    if v.tells .error then showNotices report.errors
    return if report.hasErrors then 1 else 0

/-- The level of telling that the command line names. -/
def verbosity (a : Arguments) : IO Verbosity := do
  let name := a.logLevel.getD "info"
  match Verbosity.ofText? name with
  | some v => return v
  | none =>
    IO.eprintln ("Invalid log level: " ++ name ++ ". Using 'warn' instead.")
    return .warning

/-- Does what the command line asks for. -/
def start (words : List String) : IO UInt32 := do
  match Arguments.ofWords words with
  | .ok a =>
    let v ← verbosity a
    let e ← gather (← userSettings) a []
    showOutcome v (e.run a)
  | .error .help =>
    IO.println usage
    return 0
  | .error .version =>
    IO.println version
    return 0
  | .error fault =>
    IO.eprintln ("error: " ++ faultText fault ++ "\n\n" ++ usage)
    return 2

end ModelText.Program

/-- The program as it is started. -/
def main (words : List String) : IO UInt32 :=
  ModelText.Program.start words
