import ModelText.Construction.Work

/-!
# Values for slots

Literals become values according to the type of their slot. A record literal
becomes an object of its own: its scope is open while its fields are assigned,
so that they are slots of the record. A fault in one of the fields leaves out
that field and not the record, unless it is fatal.
-/

namespace ModelText

/-- The value of a literal for a primitive type of some kind. Integers can
stand for decimals, and every single literal for a text of no further meaning:
it keeps its spelling. -/
def PrimitiveKind.value? : PrimitiveKind → Literal → Option Value
  | .integer, .integer n => some (.integer n)
  | .decimal, .integer n => some (.decimal (Decimal.ofInt n.toInt))
  | .decimal, .decimal d => some (.decimal d)
  | .boolean, .boolean b => some (.boolean b)
  | .string, .string s => some (.string s)
  | .other, .string s => some (.string s)
  | .other, .identifier s => some (.string s)
  | .other, .integer n => some (.string (Literal.integer n).text)
  | .other, .decimal d => some (.string (Literal.decimal d).text)
  | .other, .boolean b => some (.string (Literal.boolean b).text)
  | _, _ => none

/-- The value of a single literal for a slot of some type. -/
def TypeInfo.value (slot : Slot) (type : TypeInfo) (literal : Literal) :
    Except Fault Value :=
  match type, literal with
  | .primitive type, literal =>
    match type.kind.value? literal with
    | some value => .ok value
    | none => .error (.unfitLiteral slot.name type.name literal.kindName)
  | .enumerated type, .identifier name =>
    if type.hasLiteral name then .ok (.enumerated name)
    else .error (.unknownLiteral name type)
  | type, literal =>
    .error (.unfitLiteral slot.name type.name literal.kindName)

theorem TypeInfo.value_eq_ok {slot : Slot} {type : TypeInfo}
    {literal : Literal} {value : Value}
    (h : type.value slot literal = .ok value) :
    (∃ primitive, type = .primitive primitive ∧
        primitive.kind.value? literal = some value) ∨
      ∃ e name, type = .enumerated e ∧ e.hasLiteral name = true ∧
        value = .enumerated name := by
  unfold TypeInfo.value at h
  split at h
  · split at h
    · cases h
      exact .inl ⟨_, rfl, ‹_›⟩
    · cases h
  · split at h
    · cases h
      exact .inr ⟨_, _, rfl, ‹_›, rfl⟩
    · cases h
  · cases h

namespace Build

/-- Gives a slot of the scope on top a value that depends on the slot. -/
def assignBy (name : Spanned String) (value : Slot → Build Value) :
    Build Unit := do
  match (← get).scopes with
  | [] => Work.fail .slotOutside name.span
  | scope :: _ =>
    match scope.type.slot? name.value with
    | none => Work.fail (.unknownSlot name.value scope.type) name.span
    | some slot =>
      let value ← value slot
      session (.change .assignment name.span
        (·.setValue slot scope.object value))

mutual

/-- The value of a literal for a slot. -/
def value (m : Metamodel) (unit : SourceUnit) (slot : Slot) (span : Span)
    (literal : Literal) : Build Value := do
  match m.lookup? slot.type with
  | none => Work.fail (.untypedSlot slot) span
  | some type =>
    match type, literal with
    | .record type, .record fields =>
      let object ← session (.instantiate (.record type) false)
      push ⟨object, .record type, []⟩
      assignFields m unit fields
      pop
      return .record object
    | type, literal => Work.ofExcept span (type.value slot literal)

/-- Assigns fields to the record whose scope is on top. -/
def assignFields (m : Metamodel) (unit : SourceUnit) :
    List Field → Build Unit
  | [] => pure ()
  | ⟨name, ⟨literal, span⟩⟩ :: rest => do
    recover unit (assignBy name fun slot => value m unit slot span literal)
    assignFields m unit rest

end

/-- Gives a slot of the scope on top the value of a literal. -/
def assign (m : Metamodel) (unit : SourceUnit) (name : Spanned String)
    (literal : Spanned Literal) : Build Unit :=
  assignBy name fun slot => value m unit slot literal.span literal.value

end Build

end ModelText
