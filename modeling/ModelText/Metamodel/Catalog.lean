import ModelText.Metamodel.Types
import ModelText.NameMap

/-!
# Catalogs

A catalog holds the types of all languages of a metamodel, by name and in the
order of declaration, and the units that come with the languages. The compiler
asks a metamodel four questions; a catalog answers them from its table.
-/

namespace ModelText

/-- What the compiler asks about types. -/
structure Metamodel where
  /-- A type by name, if its language is among those given. -/
  visible? : String → NameSet → Option TypeInfo
  /-- All types of the languages given. -/
  visibleTypes : NameSet → List TypeInfo
  /-- A type by name, whatever its language. -/
  lookup? : String → Option TypeInfo
  /-- The units that come with the languages. -/
  builtIns : NameMap String

/-- A metamodel that was checked as a whole. -/
structure Catalog where
  /-- The declared languages. -/
  languages : NameSet
  /-- All types by name, in the order of declaration. -/
  types : NameMap TypeInfo
  /-- The units that come with the languages. -/
  builtIns : NameMap String

namespace Catalog

/-- Whether a language is declared. -/
def hasLanguage (c : Catalog) (language : String) : Bool :=
  c.languages.contains language

/-- A type by name, whatever its language. -/
def lookup? (c : Catalog) (name : String) : Option TypeInfo := c.types.get? name

/-- A type by name, if its language is among those given. -/
def visible? (c : Catalog) (name : String) (languages : NameSet) :
    Option TypeInfo :=
  (c.lookup? name).filter (·.isVisible languages)

/-- All types of the languages given, in the order of declaration. -/
def visibleTypes (c : Catalog) (languages : NameSet) : List TypeInfo :=
  c.types.values.filter (·.isVisible languages)

/-- The catalog as the compiler sees it. -/
def metamodel (c : Catalog) : Metamodel where
  visible? := c.visible?
  visibleTypes := c.visibleTypes
  lookup? := c.lookup?
  builtIns := c.builtIns

end Catalog

/-- The metamodel without an answer for some names where the language does not
matter; its other answers stay. -/
def Metamodel.hiding (m : Metamodel) (names : List String) : Metamodel :=
  { m with lookup? := fun name => if name ∈ names then none else m.lookup? name }

end ModelText
