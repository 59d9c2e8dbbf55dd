import ModelText.Diagnostic.Basic
import ModelText.Graph.Basic

/-!
# Faults of construction

What can be wrong with a unit whose text has the right form: the cause as a
value of `Fault`, and what is told about it as functions on causes. Warnings
and errors leave the construction going on; a fatal fault ends it for the unit.
Causes that only a wrong list of events can bring about count as internal, and
so do those where a name that should be a slot is none.
-/

namespace ModelText

/-- What a feature does with elements. -/
inductive FeatureRole where
  /-- It holds them. -/
  | composition
  /-- It refers to them. -/
  | reference
  deriving DecidableEq, Inhabited

namespace FeatureRole

/-- The word for features of a role. -/
def text : FeatureRole → String
  | .composition => "composition"
  | .reference => "reference"

/-- The features of a role that a type has. -/
def features (role : FeatureRole) (t : ObjectType) : List Feature :=
  match role with
  | .composition => t.compositions
  | .reference => t.references

end FeatureRole

/-- What was to be done when the graph refused. -/
inductive Attempt where
  /-- To name an object. -/
  | name
  /-- To follow a modifier. -/
  | modifier
  /-- To give a slot a value. -/
  | assignment
  /-- To let an element hold another one. -/
  | attachment
  /-- To let an element refer to another one. -/
  | link
  deriving DecidableEq, Inhabited

/-- What is written beside the place of an attempt. -/
def Attempt.label : Attempt → String
  | .name => "named here"
  | .modifier => "modifier"
  | .assignment => "assigned here"
  | .attachment => "attached here"
  | .link => "linked here"

/-- A fault of construction. -/
inductive Fault where
  /-- A language without types. -/
  | emptyLanguage (language : String)
  /-- An element before any language. -/
  | noLanguages
  /-- An element of a type that the languages of the unit do not have. -/
  | unknownType (type : String)
  /-- An element of a type whose values are no elements. -/
  | notElementType (type kind : String)
  /-- An element of an abstract type. -/
  | abstractType (type : String)
  /-- An element at the top level whose type is not meant for it. -/
  | notRootType (type : String)
  /-- The end of an element that did not start. -/
  | endWithoutStart
  /-- The end of a block with more elements than there are. -/
  | endWithoutBlock
  /-- A modifier that names a slot of an unsuitable type. -/
  | unsuitableModifier (tag type : String)
  /-- A modifier without meaning for the type of the element. -/
  | unknownModifier (tag type : String)
  /-- A literal outside all elements. -/
  | slotOutside
  /-- A literal for something that is not a slot of the type. -/
  | unknownSlot (name : String) (type : StructuredType)
  /-- A slot whose type is not to be found. -/
  | untypedSlot (slot : Slot)
  /-- A literal of the wrong kind for its slot. -/
  | unfitLiteral (slot type kind : String)
  /-- A name that is no literal of the enumeration. -/
  | unknownLiteral (name : String) (type : EnumType)
  /-- A feature outside all elements. -/
  | featureOutside (feature : String)
  /-- A feature of a record. -/
  | noFeatures (type : String)
  /-- A feature that the type does not have in this role. -/
  | unknownFeature (role : FeatureRole) (feature : String) (type : ObjectType)
  /-- A path that leads nowhere. -/
  | unresolved (path : List String)
  /-- The graph refused a change. -/
  | refused (error : Graph.Error) (attempt : Attempt)
  deriving DecidableEq

namespace Fault

/-- A name as messages show it. -/
def quote (name : String) : String := "`" ++ name ++ "`"

/-- Names as messages list them. -/
def quoteAll (names : List String) : String :=
  ", ".intercalate (names.map quote)

/-- How grave a refusal of the graph is: a broken rule of the metamodel is an
error, a broken graph is fatal. -/
def refusalSeverity : Graph.Error → Severity
  | .typeMismatch .. => .error
  | .alreadySet _ => .error
  | .alreadyHeld _ => .fatal
  | .unknownObject _ => .fatal

/-- The kind of a refusal of the graph. -/
def refusalCategory : Graph.Error → Category
  | .typeMismatch .. => .typeError
  | .alreadySet _ => .unspecified
  | .alreadyHeld _ => .internal
  | .unknownObject _ => .internal

/-- How grave a fault is. -/
def severity : Fault → Severity
  | .emptyLanguage _ => .warning
  | .notRootType _ => .warning
  | .unfitLiteral .. => .error
  | .unknownLiteral .. => .error
  | .unresolved _ => .error
  | .refused error _ => refusalSeverity error
  | _ => .fatal

/-- The kind of a fault. -/
def category : Fault → Category
  | .emptyLanguage _ => .unknownElement
  | .noLanguages => .missingElement
  | .unknownType _ => .unknownElement
  | .notElementType .. => .unknownElement
  | .abstractType _ => .abstractElement
  | .notRootType _ => .unspecified
  | .unknownModifier .. => .missingFeature
  | .unfitLiteral .. => .typeError
  | .unknownLiteral .. => .typeError
  | .noFeatures _ => .elementAdmitsNoFeatures
  | .unknownFeature .. => .missingFeature
  | .unresolved _ => .unresolvedName
  | .refused error _ => refusalCategory error
  | _ => .internal

/-- A fault in words. -/
def message : Fault → String
  | .emptyLanguage language =>
    "Language " ++ quote language ++ " defines no types"
  | .noLanguages => "No languages defined"
  | .unknownType type => "Unknown element type " ++ quote type
  | .notElementType type kind =>
    quote type ++ " is a " ++ kind ++ ", not an element type"
  | .abstractType type =>
    "Cannot instantiate abstract element type " ++ quote type
  | .notRootType type => quote type ++ " is not a root type"
  | .endWithoutStart => "Element end without a matching start"
  | .endWithoutBlock => "Block closes more elements than it opened"
  | .unsuitableModifier tag type =>
    "Modifier " ++ quote tag ++ " targets slot " ++ quote tag ++
      " of type " ++ quote type ++ ", which is neither boolean nor enumerated"
  | .unknownModifier tag type =>
    "Modifier " ++ quote tag ++
      " matches no boolean slot or enumerated literal of " ++ quote type
  | .slotOutside => "Slot assignment outside of any element"
  | .unknownSlot name type =>
    quote name ++ " is not a slot of " ++ quote type.name
  | .untypedSlot slot =>
    "Slot " ++ quote slot.name ++ " has unknown type " ++ quote slot.type
  | .unfitLiteral slot type kind =>
    "Slot " ++ quote slot ++ " expects a " ++ quote type ++
      " value, found " ++ kind
  | .unknownLiteral name type =>
    quote name ++ " is not a literal of " ++ quote type.name
  | .featureOutside feature =>
    "Feature " ++ quote feature ++ " used outside of any element"
  | .noFeatures type => quote type ++ " admits no features"
  | .unknownFeature _ feature type =>
    "Feature " ++ quote feature ++ " not found in " ++ quote type.name
  | .unresolved path => "Unknown name: '" ++ ".".intercalate path ++ "'"
  | .refused error _ => error.message

/-- What is written beside the place of a fault. -/
def label : Fault → String
  | .emptyLanguage _ => "unknown language"
  | .noLanguages => "element declared before any language"
  | .unknownType _ => "not defined by the declared languages"
  | .notElementType .. => "cannot be declared as an element"
  | .abstractType _ => "abstract type"
  | .notRootType _ => "declared at the top level"
  | .unknownModifier .. => "unknown modifier"
  | .unfitLiteral .. => "incompatible value"
  | .unknownLiteral .. => "unknown literal"
  | .noFeatures _ => "feature used here"
  | .unknownFeature role _ _ => "unknown " ++ role.text
  | .unresolved _ => "no element with this name is visible here"
  | .refused _ attempt => attempt.label
  | _ => "while building this"

/-- The advice for a name that is not a slot: what it is instead. -/
def slotHelp? (name : String) (type : ObjectType) : Option String :=
  if (type.reference? name).isSome then
    some (quote name ++ " is a reference, write `" ++ name ++ ": name`")
  else if (type.composition? name).isSome then
    some (quote name ++ " is a composition, write `" ++ name ++
      " \x7b ... \x7d`")
  else none

/-- The advice for a name that is not a feature: those that there are. -/
def featureHelp (role : FeatureRole) (type : ObjectType) : String :=
  match role.features type with
  | [] => quote type.name ++ " declares no " ++ role.text ++ "s"
  | features =>
    "declared " ++ role.text ++ "s: " ++ quoteAll (features.map (·.name))

/-- The advice that goes with a fault. -/
def help? : Fault → Option String
  | .noLanguages => some "declare a language first, for example `language UI`"
  | .unknownSlot name type => type.object?.bind (slotHelp? name)
  | .unknownLiteral _ type =>
    some ("expected one of " ++ quoteAll type.literals)
  | .unknownFeature role _ type => some (featureHelp role type)
  | _ => none

/-- What is told about a fault at its place. -/
def diagnostic (f : Spanned Fault) : Diagnostic where
  severity := f.value.severity
  category := f.value.category
  message := f.value.message
  labels := [⟨f.span, f.value.label, true⟩]
  help := f.value.help?

@[simp] theorem severity_diagnostic (f : Spanned Fault) :
    (diagnostic f).severity = f.value.severity := rfl

end Fault

end ModelText
