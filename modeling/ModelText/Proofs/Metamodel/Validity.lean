import ModelText.Proofs.Metamodel.Declarations
import Mathlib.Data.List.Count
import Mathlib.Logic.Relation

/-!
# Valid schemas

What a schema must be like to describe a metamodel, said of the schema alone:
names are declared once, types are used for what they are, defaults fit their
slots, and no type inherits from itself. Nothing here says in which order this
is checked. Beside it stands what each defect says of a schema that has it; a
defect is present only in a schema that is not valid.
-/

namespace ModelText

namespace Schema

variable (s : Schema)

/-- The declared type names with their kinds: the standard primitive types, and
behind them what the languages declare. -/
def declared : List (String × DeclaredKind) :=
  standardPrimitives.map (fun d => (d.name, .primitive d.kind)) ++
    s.languages.flatMap LanguageDefinition.declares

/-- The declared type names. -/
def typeNames : List String := s.declared.map Prod.fst

/-- The declared languages. -/
def languageNames : List String := s.languages.map (·.name)

/-- A name is declared as a type of a kind. -/
def Declares (name : String) (kind : DeclaredKind) : Prop :=
  (name, kind) ∈ s.declared

/-- A slot is defined in a type. -/
inductive OwnsSlot : String → SlotDefinition → Prop
  | record {language : String} {d : RecordDefinition} {slot : SlotDefinition} :
    (language, d) ∈ s.recordDefinitions → slot ∈ d.slots → OwnsSlot d.name slot
  | object {language : String} {d : ObjectDefinition} {slot : SlotDefinition} :
    (language, d) ∈ s.objectDefinitions → slot ∈ d.slots → OwnsSlot d.name slot

/-- A feature is defined in a type, for elements that it holds or refers to. -/
inductive OwnsFeature : String → FeatureDefinition → Prop
  | composition {language : String} {d : ObjectDefinition}
      {feature : FeatureDefinition} : (language, d) ∈ s.objectDefinitions →
    feature ∈ d.compositions → OwnsFeature d.name feature
  | reference {language : String} {d : ObjectDefinition}
      {feature : FeatureDefinition} : (language, d) ∈ s.objectDefinitions →
    feature ∈ d.references → OwnsFeature d.name feature

/-- A type names another one as its supertype. -/
inductive Extends : String → String → Prop
  | intro {language : String} {d : ObjectDefinition} {supertype : String} :
    (language, d) ∈ s.objectDefinitions → supertype ∈ d.supertypes →
    Extends d.name supertype

/-- A default fits a type. Records and objects have none that fits, and a whole
number is a decimal one too. -/
inductive DefaultFits (type : String) : DeclaredKind → DefaultValue → Prop
  | integer {value : Int64} :
    DefaultFits type (.primitive .integer) (.integer value)
  | decimal {value : Decimal} :
    DefaultFits type (.primitive .decimal) (.decimal value)
  | whole {value : Int64} :
    DefaultFits type (.primitive .decimal) (.integer value)
  | boolean {value : Bool} :
    DefaultFits type (.primitive .boolean) (.boolean value)
  | string {text : String} : DefaultFits type (.primitive .string) (.text text)
  | other {text : String} : DefaultFits type (.primitive .other) (.text text)
  | literal {e : EnumType} {text : String} : e ∈ s.enumTypes → e.name = type →
    text ∈ e.literals → DefaultFits type .enumerated (.text text)

/-- The type of a slot is declared, for values, and the default, if there is
one, fits it. -/
def SlotValid (d : SlotDefinition) : Prop :=
  ∃ kind, s.Declares d.type kind ∧ kind ≠ .object ∧
    ∀ value, d.default = some value → s.DefaultFits d.type kind value

/-- A schema describes a metamodel. -/
structure Valid : Prop where
  languages : s.languageNames.Nodup
  types : s.typeNames.Nodup
  slots : ∀ owner slot, s.OwnsSlot owner slot → s.SlotValid slot
  features : ∀ owner feature, s.OwnsFeature owner feature →
    s.Declares feature.target .object
  supertypes : ∀ type supertype, s.Extends type supertype →
    s.Declares supertype .object
  acyclic : ∀ type, ¬ Relation.TransGen s.Extends type type

end Schema

/-! ### Defects -/

/-- A fault tells of a default for a type of a kind why it does not fit. -/
def DefaultFault.Tells (kind : DeclaredKind) (type : String)
    (value : DefaultValue) : DefaultFault → Prop
  | .noLiteral text type' => kind = .enumerated ∧ value = .text text ∧ type' = type
  | .ofRecord => kind = .record
  | .mismatch value' type' => value' = value ∧ type' = type

/-- What a defect says of a schema that has it. -/
def CatalogError.Present (s : Schema) : CatalogError → Prop
  | .duplicateLanguage name => 2 ≤ s.languageNames.count name
  | .duplicateType name => 2 ≤ s.typeNames.count name
  | .unknownType owner feature target =>
    ((∃ d, s.OwnsSlot owner d ∧ d.name = feature ∧ d.type = target) ∨
      ∃ d, s.OwnsFeature owner d ∧ d.name = feature ∧ d.target = target) ∧
    target ∉ s.typeNames
  | .invalidFeatureType owner feature .values target =>
    (∃ d, s.OwnsSlot owner d ∧ d.name = feature ∧ d.type = target) ∧
    s.Declares target .object
  | .invalidFeatureType owner feature .elements target =>
    (∃ d, s.OwnsFeature owner d ∧ d.name = feature ∧ d.target = target) ∧
    ∃ kind, s.Declares target kind ∧ kind ≠ .object
  | .unknownSupertype type supertype =>
    s.Extends type supertype ∧ ¬ s.Declares supertype .object
  | .inheritanceCycle name => Relation.TransGen s.Extends name name
  | .invalidDefault owner slot fault =>
    ∃ d kind value, s.OwnsSlot owner d ∧ d.name = slot ∧
      s.Declares d.type kind ∧ d.default = some value ∧
      ¬ s.DefaultFits d.type kind value ∧ fault.Tells kind d.type value

namespace Schema

variable {s : Schema}

theorem mem_typeNames {name : String} :
    name ∈ s.typeNames ↔ ∃ kind, s.Declares name kind := by
  constructor
  · intro h
    obtain ⟨⟨_, kind⟩, hm, rfl⟩ := List.mem_map.1 h
    exact ⟨kind, hm⟩
  · rintro ⟨kind, hm⟩
    exact List.mem_map.2 ⟨_, hm, rfl⟩

/-- A name has one kind, once names are declared once. -/
theorem Valid.kind_unique (h : s.Valid) {name : String}
    {kind kind' : DeclaredKind} (hk : s.Declares name kind)
    (hk' : s.Declares name kind') : kind = kind' :=
  congrArg Prod.snd (List.inj_on_of_nodup_map h.types hk hk' rfl)

end Schema

/-- A schema with a defect is not valid. -/
theorem CatalogError.Present.not_valid {s : Schema} {e : CatalogError}
    (h : e.Present s) : ¬ s.Valid := by
  intro hv
  cases e with
  | duplicateLanguage name =>
    exact absurd (List.nodup_iff_count_le_one.1 hv.languages name)
      (Nat.not_le.2 h)
  | duplicateType name =>
    exact absurd (List.nodup_iff_count_le_one.1 hv.types name) (Nat.not_le.2 h)
  | unknownType owner feature target =>
    obtain ⟨⟨d, ho, -, rfl⟩ | ⟨d, ho, -, rfl⟩, hn⟩ := h
    · obtain ⟨kind, hk, -⟩ := hv.slots owner d ho
      exact hn (Schema.mem_typeNames.2 ⟨kind, hk⟩)
    · exact hn (Schema.mem_typeNames.2 ⟨_, hv.features owner d ho⟩)
  | invalidFeatureType owner feature expected target =>
    cases expected with
    | values =>
      obtain ⟨⟨d, ho, -, rfl⟩, hd⟩ := h
      obtain ⟨kind, hk, hn, -⟩ := hv.slots owner d ho
      exact hn (hv.kind_unique hk hd)
    | elements =>
      obtain ⟨⟨d, ho, -, rfl⟩, kind, hk, hn⟩ := h
      exact hn (hv.kind_unique hk (hv.features owner d ho))
  | unknownSupertype type supertype =>
    exact h.2 (hv.supertypes type supertype h.1)
  | inheritanceCycle name => exact hv.acyclic name h
  | invalidDefault owner slot fault =>
    obtain ⟨d, kind, value, ho, -, hk, hd, hf, -⟩ := h
    obtain ⟨kind', hk', -, hf'⟩ := hv.slots owner d ho
    rw [hv.kind_unique hk hk'] at hf
    exact hf (hf' value hd)

end ModelText
