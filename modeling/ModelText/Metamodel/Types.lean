import ModelText.Metamodel.Schema
import ModelText.NameSet
import ModelText.Value

/-!
# Types

The types of a metamodel that has passed all checks. An object type lists the
slots and features of its supertypes together with its own, and its supertypes
up to the last. Elements and records alike have slots, so both kinds of type
can be the type of an object; only object types have features.
-/

namespace ModelText

/-- A slot. -/
structure Slot where
  /-- The name of the slot. -/
  name : String
  /-- The type of its values. -/
  type : String
  /-- Whether a value has to be given. -/
  required : Bool
  /-- Whether several values can be given. -/
  many : Bool
  /-- The value while none is given. -/
  default : Value
  deriving DecidableEq, Inhabited

/-- A feature that holds or refers to elements. -/
structure Feature where
  /-- The name of the feature. -/
  name : String
  /-- The type of its elements. -/
  target : String
  /-- Whether an element has to be given. -/
  required : Bool
  /-- Whether several elements can be given. -/
  many : Bool
  deriving DecidableEq, Inhabited

/-- An object type. -/
structure ObjectType where
  /-- The name of the type. -/
  name : String
  /-- The language that declares it. -/
  language : String
  /-- Whether there are no elements of just this type. -/
  isAbstract : Bool
  /-- Whether elements of the type stand at the top level. -/
  isRoot : Bool
  /-- All its supertypes, direct or not. -/
  supertypes : NameSet
  /-- All its slots, the inherited ones first. -/
  slots : List Slot
  /-- All its features that hold elements, the inherited ones first. -/
  compositions : List Feature
  /-- All its features that refer to elements, the inherited ones first. -/
  references : List Feature
  deriving DecidableEq, Inhabited

/-- A record type. -/
structure RecordType where
  /-- The name of the type. -/
  name : String
  /-- The language that declares it. -/
  language : String
  /-- Its slots. -/
  slots : List Slot
  deriving DecidableEq, Inhabited

/-- An enumeration. -/
structure EnumType where
  /-- The name of the type. -/
  name : String
  /-- The language that declares it. -/
  language : String
  /-- The names of its values. -/
  literals : List String
  deriving DecidableEq, Inhabited

/-- A primitive type, which belongs to no language. -/
structure PrimitiveType where
  /-- The name of the type. -/
  name : String
  /-- What its values are. -/
  kind : PrimitiveKind
  deriving DecidableEq, Inhabited

/-- The slot with a given name. -/
def slotNamed? (slots : List Slot) (name : String) : Option Slot :=
  slots.find? (·.name = name)

/-- The feature with a given name. -/
def featureNamed? (features : List Feature) (name : String) : Option Feature :=
  features.find? (·.name = name)

namespace ObjectType

/-- The slot with a given name. -/
def slot? (t : ObjectType) (name : String) : Option Slot :=
  slotNamed? t.slots name

/-- The feature with a given name that holds elements. -/
def composition? (t : ObjectType) (name : String) : Option Feature :=
  featureNamed? t.compositions name

/-- The feature with a given name that refers to elements. -/
def reference? (t : ObjectType) (name : String) : Option Feature :=
  featureNamed? t.references name

/-- Whether an element of the type can stand where `target` is expected. -/
def conformsTo (t : ObjectType) (target : String) : Bool :=
  t.name == target || t.supertypes.contains target

end ObjectType

namespace EnumType

/-- Whether a name is that of a value of the enumeration. -/
def hasLiteral (t : EnumType) (name : String) : Bool :=
  decide (name ∈ t.literals)

end EnumType

/-- The type of an object: a type with slots. -/
inductive StructuredType where
  | object (type : ObjectType)
  | record (type : RecordType)
  deriving DecidableEq, Inhabited

namespace StructuredType

/-- The name of the type. -/
def name : StructuredType → String
  | .object t => t.name
  | .record t => t.name

/-- The slots of the type. -/
def slots : StructuredType → List Slot
  | .object t => t.slots
  | .record t => t.slots

/-- The slot with a given name. -/
def slot? (t : StructuredType) (name : String) : Option Slot :=
  slotNamed? t.slots name

/-- The object type, if it is one. -/
def object? : StructuredType → Option ObjectType
  | .object t => some t
  | .record _ => none

/-- Whether an object of the type can stand where `target` is expected. -/
def conformsTo : StructuredType → String → Bool
  | .object t, target => t.conformsTo target
  | .record t, target => t.name == target

end StructuredType

/-- Any type of a metamodel. -/
inductive TypeInfo where
  | object (type : ObjectType)
  | record (type : RecordType)
  | enumerated (type : EnumType)
  | primitive (type : PrimitiveType)
  deriving DecidableEq, Inhabited

namespace TypeInfo

/-- The name of the type. -/
def name : TypeInfo → String
  | .object t => t.name
  | .record t => t.name
  | .enumerated t => t.name
  | .primitive t => t.name

/-- The language that declares the type; primitive types have none. -/
def language? : TypeInfo → Option String
  | .object t => some t.language
  | .record t => some t.language
  | .enumerated t => some t.language
  | .primitive _ => none

/-- The type as the type of an object, if there are objects of it. -/
def structured? : TypeInfo → Option StructuredType
  | .object t => some (.object t)
  | .record t => some (.record t)
  | .enumerated _ => none
  | .primitive _ => none

/-- The kind of the type in words. -/
def kindName : TypeInfo → String
  | .object _ => "object type"
  | .record _ => "record type"
  | .enumerated _ => "enumerated type"
  | .primitive _ => "primitive type"

/-- Whether the type belongs to one of the languages. -/
def isVisible (t : TypeInfo) (languages : NameSet) : Bool :=
  t.language?.any languages.contains

end TypeInfo

end ModelText
