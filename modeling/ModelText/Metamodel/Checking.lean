import ModelText.Metamodel.Catalog

/-!
# From schemas to catalogs

`Schema.catalog` checks a schema and builds its catalog, or names the first
defect. First all names are declared, so that types can be used before their
definition; then record types are built, and at last object types, each after
its supertypes, whose slots and features it takes over. A slot or feature of a
name that is already there replaces the inherited one in its place.

A type that inherits from itself has no place in this order. To find it, the
definitions that are not on the path of inheritance are handed down: where a
supertype is missing among them, the path has come round.
-/

namespace ModelText

/-- Why a default does not fit its slot. -/
inductive DefaultFault where
  /-- The text is no literal of the enumeration. -/
  | noLiteral (text : String) (type : String)
  /-- A record slot has no default. -/
  | ofRecord
  /-- The value is not of the type. -/
  | mismatch (value : DefaultValue) (type : String)
  deriving DecidableEq

/-- What a feature may have for its type. -/
inductive FeatureSort where
  /-- Values. -/
  | values
  /-- Elements. -/
  | elements
  deriving DecidableEq

/-- A defect of a schema. -/
inductive CatalogError where
  | duplicateLanguage (name : String)
  | duplicateType (name : String)
  | unknownType (owner feature target : String)
  | invalidFeatureType (owner feature : String) (expected : FeatureSort)
    (target : String)
  | unknownSupertype (type supertype : String)
  | inheritanceCycle (name : String)
  | invalidDefault (owner slot : String) (fault : DefaultFault)
  deriving DecidableEq

/-- Why a default does not fit, in words. -/
def DefaultFault.message : DefaultFault → String
  | .noLiteral text type => "`" ++ text ++ "` is not a literal of `" ++ type ++ "`"
  | .ofRecord => "record slots cannot declare a default"
  | .mismatch value type =>
    value.describe ++ " does not match type `" ++ type ++ "`"

/-- What a feature may have for its type, in words. -/
def FeatureSort.text : FeatureSort → String
  | .values => "a primitive, enumerated or record type"
  | .elements => "an object type"

/-- A defect in words. -/
def CatalogError.message : CatalogError → String
  | .duplicateLanguage name =>
    "language `" ++ name ++ "` is declared more than once"
  | .duplicateType name => "type `" ++ name ++ "` is declared more than once"
  | .unknownType owner feature target =>
    "`" ++ owner ++ "." ++ feature ++ "` refers to unknown type `" ++ target ++ "`"
  | .invalidFeatureType owner feature expected target =>
    "`" ++ owner ++ "." ++ feature ++ "` must refer to " ++ expected.text ++
      ", but `" ++ target ++ "` is not"
  | .unknownSupertype type supertype =>
    "type `" ++ type ++ "` extends unknown object type `" ++ supertype ++ "`"
  | .inheritanceCycle name => "inheritance cycle through type `" ++ name ++ "`"
  | .invalidDefault owner slot fault =>
    "invalid default for `" ++ owner ++ "." ++ slot ++ "`: " ++ fault.message

/-! ### Declarations -/

/-- What is known of a type from its declaration alone. -/
inductive DeclaredKind where
  | object
  | record
  | enumerated
  | primitive (kind : PrimitiveKind)
  deriving DecidableEq

/-- The primitive types that every catalog has. -/
def standardPrimitives : List PrimitiveDefinition :=
  [⟨"Integer", .integer⟩, ⟨"Decimal", .decimal⟩, ⟨"Boolean", .boolean⟩,
    ⟨"String", .string⟩]

/-- The type names that a language declares, with their kinds. -/
def LanguageDefinition.declares (l : LanguageDefinition) :
    List (String × DeclaredKind) :=
  l.objects.map (fun d => (d.name, .object)) ++
    l.records.map (fun d => (d.name, .record)) ++
    l.enums.map (fun d => (d.name, .enumerated)) ++
    l.primitives.map (fun d => (d.name, .primitive d.kind))

/-- All declared names. -/
structure Declarations where
  /-- The languages. -/
  languages : NameSet
  /-- The types, with what is known of them. -/
  kinds : NameMap DeclaredKind

namespace Declarations

/-- Before any language, the standard primitive types are there. -/
def initial : Declarations where
  languages := .empty
  kinds := .ofList (standardPrimitives.map fun d => (d.name, .primitive d.kind))

/-- Declares a type name, which must be new. -/
def declareType (kinds : NameMap DeclaredKind)
    (declaration : String × DeclaredKind) :
    Except CatalogError (NameMap DeclaredKind) :=
  if kinds.contains declaration.1 then
    .error (.duplicateType declaration.1)
  else .ok (kinds.insert declaration.1 declaration.2)

/-- Declares a language, which must be new, and its types. -/
def declareLanguage (d : Declarations) (l : LanguageDefinition) :
    Except CatalogError Declarations :=
  if d.languages.contains l.name then .error (.duplicateLanguage l.name)
  else do
    let kinds ← l.declares.foldlM declareType d.kinds
    return ⟨d.languages.insert l.name, kinds⟩

end Declarations

namespace Schema

/-- The declarations of all languages. -/
def declarations (s : Schema) : Except CatalogError Declarations :=
  s.languages.foldlM Declarations.declareLanguage Declarations.initial

/-- The units that come with the languages. Of two units of one name the later
one counts. -/
def builtIns (s : Schema) : NameMap String :=
  .ofList (s.languages.flatMap (·.builtIns))

/-- The enumerations of all languages. -/
def enumTypes (s : Schema) : List EnumType :=
  s.languages.flatMap fun l => l.enums.map fun d => ⟨d.name, l.name, d.literals⟩

/-- The record definitions of all languages, with their languages. -/
def recordDefinitions (s : Schema) : List (String × RecordDefinition) :=
  s.languages.flatMap fun l => l.records.map fun d => (l.name, d)

/-- The object definitions of all languages, with their languages. -/
def objectDefinitions (s : Schema) : List (String × ObjectDefinition) :=
  s.languages.flatMap fun l => l.objects.map fun d => (l.name, d)

end Schema

/-! ### Slots and features -/

/-- What definitions are checked against. -/
structure Context where
  /-- The declared types. -/
  kinds : NameMap DeclaredKind
  /-- The enumerations. -/
  enums : List EnumType

namespace Context

/-- The default of a slot of a given type. -/
def defaultValue (c : Context) (kind : DeclaredKind) (type : String)
    (value : DefaultValue) : Except DefaultFault Value :=
  match kind, value with
  | .primitive .integer, .integer v => .ok (.integer v)
  | .primitive .decimal, .decimal v => .ok (.decimal v)
  | .primitive .decimal, .integer v => .ok (.decimal (.ofInt v.toInt))
  | .primitive .boolean, .boolean v => .ok (.boolean v)
  | .primitive .string, .text v => .ok (.string v)
  | .primitive .other, .text v => .ok (.string v)
  | .enumerated, .text v =>
    if c.enums.any fun t => t.name == type && t.hasLiteral v then
      .ok (.enumerated v)
    else .error (.noLiteral v type)
  | .record, _ => .error .ofRecord
  | _, value => .error (.mismatch value type)

/-- Checks the definition of a slot: its type is one of values, and its default
is of that type. -/
def slot (c : Context) (owner : String) (d : SlotDefinition) :
    Except CatalogError Slot :=
  match c.kinds.get? d.type with
  | none => .error (.unknownType owner d.name d.type)
  | some .object => .error (.invalidFeatureType owner d.name .values d.type)
  | some kind =>
    match d.default with
    | none => .ok ⟨d.name, d.type, d.required, d.many, .null⟩
    | some value =>
      match c.defaultValue kind d.type value with
      | .ok v => .ok ⟨d.name, d.type, d.required, d.many, v⟩
      | .error fault => .error (.invalidDefault owner d.name fault)

/-- Checks the definition of a feature: its type is one of elements. -/
def feature (c : Context) (owner : String) (d : FeatureDefinition) :
    Except CatalogError Feature :=
  match c.kinds.get? d.target with
  | some .object => .ok ⟨d.name, d.target, d.required, d.many⟩
  | some _ => .error (.invalidFeatureType owner d.name .elements d.target)
  | none => .error (.unknownType owner d.name d.target)

/-- Checks the definition of a record type. -/
def recordType (c : Context) (language : String) (d : RecordDefinition) :
    Except CatalogError RecordType := do
  let slots ← d.slots.mapM (c.slot d.name)
  return ⟨d.name, language, slots⟩

end Context

/-! ### Inheritance -/

/-- Puts `x` in the place of the first item with its key, or behind all items
if there is none. -/
def replaceOrAppend {α : Type} (key : α → String) (x : α) : List α → List α
  | [] => [x]
  | y :: rest =>
    if key y = key x then x :: rest else y :: replaceOrAppend key x rest

/-- Takes items over into a list, each in the place of the one it replaces. -/
def mergeNamed {α : Type} (key : α → String) (into items : List α) : List α :=
  items.foldl (fun list x => replaceOrAppend key x list) into

/-- What an object type consists of, while it is put together. -/
structure Inheritance where
  /-- The supertypes met so far. -/
  supertypes : NameSet
  /-- The slots. -/
  slots : List Slot
  /-- The features that hold elements. -/
  compositions : List Feature
  /-- The features that refer to elements. -/
  references : List Feature

namespace Inheritance

/-- Before anything is inherited. -/
def none : Inheritance := ⟨.empty, [], [], []⟩

/-- Adds slots and features of a type or of its definition. -/
def add (i : Inheritance) (slots : List Slot)
    (compositions references : List Feature) : Inheritance where
  supertypes := i.supertypes
  slots := mergeNamed (·.name) i.slots slots
  compositions := mergeNamed (·.name) i.compositions compositions
  references := mergeNamed (·.name) i.references references

/-- Takes over a supertype: its name, its supertypes, its slots and
features. -/
def inherit (i : Inheritance) (t : ObjectType) : Inheritance :=
  { i.add t.slots t.compositions t.references with
    supertypes := i.supertypes.insertAll (t.name :: t.supertypes.toList) }

end Inheritance

namespace Context

/-- Checks the slots and features that a definition adds to what its type has
inherited, and puts the type together. -/
def complete (c : Context) (language : String) (d : ObjectDefinition)
    (inherited : Inheritance) : Except CatalogError ObjectType := do
  let slots ← d.slots.mapM (c.slot d.name)
  let compositions ← d.compositions.mapM (c.feature d.name)
  let references ← d.references.mapM (c.feature d.name)
  let all := inherited.add slots compositions references
  return ⟨d.name, language, d.isAbstract, d.isRoot, all.supertypes, all.slots,
    all.compositions, all.references⟩

/-- Builds the object type of a name, after its supertypes, unless it has been
built. `defined` are all definitions and `free` those that are not on the path
of inheritance; every step down takes one of them away. -/
def objectType (c : Context) (defined free : List (String × ObjectDefinition))
    (built : NameMap ObjectType) (name : String) :
    Except CatalogError (ObjectType × NameMap ObjectType) :=
  match built.get? name with
  | some t => .ok (t, built)
  | none =>
    match _h : free.find? (·.2.name = name) with
    | none => .error (.inheritanceCycle name)
    | some (language, d) => do
      let below := free.eraseP (·.2.name = name)
      let (inherited, built) ← d.supertypes.foldlM
        (fun (inherited, built) supertype =>
          if defined.any (·.2.name = supertype) then do
            let (t, built) ← objectType c defined below built supertype
            return (Inheritance.inherit inherited t, built)
          else .error (.unknownSupertype d.name supertype))
        (Inheritance.none, built)
      let t ← c.complete language d inherited
      return (t, built.insert name t)
termination_by free.length
decreasing_by
  have := List.length_eraseP_of_mem (List.mem_of_find?_eq_some _h)
    (List.find?_some _h)
  have := List.length_pos_of_mem (List.mem_of_find?_eq_some _h)
  grind

/-- Builds the object types of the given names, in their order. -/
def objectTypes (c : Context) (defined : List (String × ObjectDefinition))
    (names : List String) : Except CatalogError (NameMap ObjectType) :=
  names.foldlM
    (fun built name => (c.objectType defined defined built name).map Prod.snd)
    .empty

end Context

namespace Schema

/-- The type of a declared name, once records and objects are built. -/
def typeInfo? (enums : List EnumType) (records : List RecordType)
    (objects : NameMap ObjectType) (name : String) :
    DeclaredKind → Option TypeInfo
  | .primitive kind => some (.primitive ⟨name, kind⟩)
  | .enumerated => (enums.find? (·.name = name)).map .enumerated
  | .record => (records.find? (·.name = name)).map .record
  | .object => (objects.get? name).map .object

/-- Checks a schema and builds its catalog. -/
def catalog (s : Schema) : Except CatalogError Catalog := do
  let declared ← s.declarations
  let context : Context := ⟨declared.kinds, s.enumTypes⟩
  let records ← s.recordDefinitions.mapM fun (language, d) =>
    context.recordType language d
  let objectNames := declared.kinds.names.filter fun name =>
    declared.kinds.get? name = some .object
  let objects ← context.objectTypes s.objectDefinitions objectNames
  return {
    languages := declared.languages
    types := declared.kinds.filterMap
      (typeInfo? s.enumTypes records objects)
    builtIns := s.builtIns }

end Schema

end ModelText
