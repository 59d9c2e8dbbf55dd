import ModelText.Compilation.Config
import ModelText.Toml.Reader
import ModelText.Toml.Record

/-!
# Settings in TOML

The settings of the program as they are written in a TOML text: those of the
compilation, and the path of the metamodel. What is left out has its default.
-/

namespace ModelText

/-- The settings of the program. -/
structure Settings where
  /-- The settings of the compilation. -/
  compiler : Config
  /-- The path of the metamodel. -/
  metamodelPath : Option String
  deriving DecidableEq, Inhabited

/-- The settings where nothing is said. -/
def Settings.default : Settings := ⟨.default, none⟩

/-- Which fatal problems keep an element from becoming a root, by name. -/
def FatalScope.ofText? : String → Option FatalScope
  | "session" => some .session
  | "unit" => some .unit
  | _ => none

/-- The settings of a compilation. -/
def Config.ofToml? (t : Toml) : Option Config := do
  let r ← t.record? ["implicit_builtins", "fatal_scope",
    "suppress_roots_on_error", "source_extension"]
  let d := Config.default
  return {
    implicitBuiltIns :=
      ← r.optional "implicit_builtins" d.implicitBuiltIns Toml.boolean?
    fatalScope := ← r.optional "fatal_scope" d.fatalScope fun value =>
      value.choice?.bind FatalScope.ofText?
    suppressRootsOnError :=
      ← r.optional "suppress_roots_on_error" d.suppressRootsOnError
        Toml.boolean?
    sourceExtension :=
      ← r.optional "source_extension" d.sourceExtension Toml.string? }

/-- The path of the metamodel, from the table that holds it. -/
def metamodelPathOfToml? (t : Toml) : Option (Option String) := do
  let r ← t.record? ["path"]
  r.optional "path" none fun value => value.string?.map some

/-- The settings from their table. -/
def Settings.ofToml? (t : Toml) : Option Settings := do
  let r ← t.record? ["compiler", "metamodel"]
  return {
    compiler := ← r.optional "compiler" Config.default Config.ofToml?
    metamodelPath := ← r.optional "metamodel" none metamodelPathOfToml? }

/-- The settings that a text stands for. -/
def Settings.ofText? (text : String) : Option Settings :=
  (Toml.ofText? text).bind Settings.ofToml?

end ModelText
