import ModelText.Decimal.Writer
import ModelText.Text.Number
import ModelText.Text.Quoted

/-!
# Schemas

A schema is the written definition of a metamodel: languages, and the types
that each of them declares. Nothing in it has been checked yet; names may be
unknown, repeated or used for the wrong kind of type. A catalog is built from
a schema that passes all checks.
-/

namespace ModelText

/-- The kind of a primitive type. The values of a type of another kind are
kept as text. -/
inductive PrimitiveKind where
  | integer
  | decimal
  | boolean
  | string
  | other
  deriving DecidableEq, Inhabited

namespace PrimitiveKind

/-- The name of a kind. -/
def text : PrimitiveKind → String
  | .integer => "integer"
  | .decimal => "decimal"
  | .boolean => "boolean"
  | .string => "string"
  | .other => "other"

/-- All kinds. -/
def all : List PrimitiveKind := [.integer, .decimal, .boolean, .string, .other]

/-- The kind with a given name. -/
def ofText? (name : String) : Option PrimitiveKind :=
  all.find? (·.text = name)

end PrimitiveKind

/-- A default as it is written, before it is known to fit its slot. -/
inductive DefaultValue where
  | boolean (value : Bool)
  | integer (value : Int64)
  | decimal (value : Decimal)
  | text (content : String)
  deriving DecidableEq, Inhabited

/-- A default with its kind, for messages. -/
def DefaultValue.describe : DefaultValue → String
  | .boolean value => "Boolean(" ++ (if value then "true" else "false") ++ ")"
  | .integer value => "Integer(" ++ Text.ofInt value.toInt ++ ")"
  | .decimal value => "Decimal(" ++ value.write Decimal.explicit ++ ")"
  | .text content => "Text(" ++ Text.quoted content ++ ")"

/-- The definition of a slot. -/
structure SlotDefinition where
  /-- The name of the slot. -/
  name : String
  /-- The type of its values. -/
  type : String
  /-- Whether a value has to be given. -/
  required : Bool
  /-- Whether several values can be given. -/
  many : Bool
  /-- The value while none is given. -/
  default : Option DefaultValue
  deriving DecidableEq, Inhabited

/-- The definition of a feature that holds or refers to elements. -/
structure FeatureDefinition where
  /-- The name of the feature. -/
  name : String
  /-- The type of its elements. -/
  target : String
  /-- Whether an element has to be given. -/
  required : Bool
  /-- Whether several elements can be given. -/
  many : Bool
  deriving DecidableEq, Inhabited

/-- The definition of an object type. -/
structure ObjectDefinition where
  /-- The name of the type. -/
  name : String
  /-- Whether there are no elements of just this type. -/
  isAbstract : Bool
  /-- Whether elements of the type stand at the top level. -/
  isRoot : Bool
  /-- The direct supertypes. -/
  supertypes : List String
  /-- The slots it adds to those of its supertypes. -/
  slots : List SlotDefinition
  /-- The features it adds that hold elements. -/
  compositions : List FeatureDefinition
  /-- The features it adds that refer to elements. -/
  references : List FeatureDefinition
  deriving DecidableEq, Inhabited

/-- The definition of a record type. -/
structure RecordDefinition where
  /-- The name of the type. -/
  name : String
  /-- Its slots. -/
  slots : List SlotDefinition
  deriving DecidableEq, Inhabited

/-- The definition of an enumeration. -/
structure EnumDefinition where
  /-- The name of the type. -/
  name : String
  /-- The names of its values. -/
  literals : List String
  deriving DecidableEq, Inhabited

/-- The definition of a primitive type. -/
structure PrimitiveDefinition where
  /-- The name of the type. -/
  name : String
  /-- What its values are. -/
  kind : PrimitiveKind
  deriving DecidableEq, Inhabited

/-- A language and the types it declares. -/
structure LanguageDefinition where
  /-- The name of the language. -/
  name : String
  /-- The units that come with it: their names and texts. -/
  builtIns : List (String × String)
  /-- Its object types. -/
  objects : List ObjectDefinition
  /-- Its record types. -/
  records : List RecordDefinition
  /-- Its enumerations. -/
  enums : List EnumDefinition
  /-- Its primitive types. -/
  primitives : List PrimitiveDefinition
  deriving DecidableEq, Inhabited

/-- The definition of a metamodel. -/
structure Schema where
  /-- The languages, in the order of declaration. -/
  languages : List LanguageDefinition
  deriving DecidableEq, Inhabited

end ModelText
