import ModelText.Metamodel.Schema
import ModelText.Toml.Reader
import ModelText.Toml.Record

/-!
# Schemas in TOML

A schema can be written as a TOML text: a list of languages, each with lists of
its types. What is left out is empty or false. The units that come with a
language are read in the order of their names.
-/

namespace ModelText

/-- A default. Integers that are too large are decimals, up to twice the size,
and nothing beyond. -/
def DefaultValue.ofToml? : Toml → Option DefaultValue
  | .boolean value => some (.boolean value)
  | .integer value =>
    if Int64.minValue.toInt ≤ value then
      if value ≤ Int64.maxValue.toInt then some (.integer (Int64.ofInt value))
      else if value < UInt64.size then some (.decimal (Decimal.ofInt value))
      else none
    else none
  | .decimal value => some (.decimal value)
  | .string content => some (.text content)
  | _ => none

/-- A slot. -/
def SlotDefinition.ofToml? (t : Toml) : Option SlotDefinition := do
  let r ← t.record? ["name", "type", "required", "many", "default"]
  return {
    name := ← r.required "name" Toml.string?
    type := ← r.required "type" Toml.string?
    required := ← r.optional "required" false Toml.boolean?
    many := ← r.optional "many" false Toml.boolean?
    default := ← r.optional "default" none fun value =>
      (DefaultValue.ofToml? value).map some }

/-- A feature. -/
def FeatureDefinition.ofToml? (t : Toml) : Option FeatureDefinition := do
  let r ← t.record? ["name", "type", "required", "many"]
  return {
    name := ← r.required "name" Toml.string?
    target := ← r.required "type" Toml.string?
    required := ← r.optional "required" false Toml.boolean?
    many := ← r.optional "many" false Toml.boolean? }

/-- An object type. -/
def ObjectDefinition.ofToml? (t : Toml) : Option ObjectDefinition := do
  let r ← t.record? ["name", "abstract", "root", "extends", "slots",
    "compositions", "references"]
  return {
    name := ← r.required "name" Toml.string?
    isAbstract := ← r.optional "abstract" false Toml.boolean?
    isRoot := ← r.optional "root" false Toml.boolean?
    supertypes := ← r.optional "extends" [] (Toml.list? Toml.string?)
    slots := ← r.optional "slots" [] (Toml.list? SlotDefinition.ofToml?)
    compositions := ← r.optional "compositions" []
      (Toml.list? FeatureDefinition.ofToml?)
    references := ← r.optional "references" []
      (Toml.list? FeatureDefinition.ofToml?) }

/-- A record type. -/
def RecordDefinition.ofToml? (t : Toml) : Option RecordDefinition := do
  let r ← t.record? ["name", "slots"]
  return {
    name := ← r.required "name" Toml.string?
    slots := ← r.optional "slots" [] (Toml.list? SlotDefinition.ofToml?) }

/-- An enumeration. -/
def EnumDefinition.ofToml? (t : Toml) : Option EnumDefinition := do
  let r ← t.record? ["name", "literals"]
  return {
    name := ← r.required "name" Toml.string?
    literals := ← r.required "literals" (Toml.list? Toml.string?) }

/-- A primitive type. -/
def PrimitiveDefinition.ofToml? (t : Toml) : Option PrimitiveDefinition := do
  let r ← t.record? ["name", "kind"]
  return {
    name := ← r.required "name" Toml.string?
    kind := ← r.required "kind" fun value =>
      value.choice?.bind PrimitiveKind.ofText? }

/-- The units that come with a language, in the order of their names. -/
def builtInsOfToml? (t : Toml) : Option (List (String × String)) := do
  let entries ← t.table?
  let units ← entries.mapM fun (name, value) => do
    return (name, ← value.string?)
  return units.mergeSort fun a b => a.1 ≤ b.1

/-- A language. -/
def LanguageDefinition.ofToml? (t : Toml) : Option LanguageDefinition := do
  let r ← t.record? ["name", "builtins", "objects", "records", "enums",
    "primitives"]
  return {
    name := ← r.required "name" Toml.string?
    builtIns := ← r.optional "builtins" [] builtInsOfToml?
    objects := ← r.optional "objects" [] (Toml.list? ObjectDefinition.ofToml?)
    records := ← r.optional "records" [] (Toml.list? RecordDefinition.ofToml?)
    enums := ← r.optional "enums" [] (Toml.list? EnumDefinition.ofToml?)
    primitives := ← r.optional "primitives" []
      (Toml.list? PrimitiveDefinition.ofToml?) }

/-- A schema from its table. -/
def Schema.ofToml? (t : Toml) : Option Schema := do
  let r ← t.record? ["languages"]
  return ⟨← r.optional "languages" [] (Toml.list? LanguageDefinition.ofToml?)⟩

/-- The schema that a text stands for. -/
def Schema.ofText? (text : String) : Option Schema :=
  (Toml.ofText? text).bind Schema.ofToml?

end ModelText
