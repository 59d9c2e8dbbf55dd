import ModelText.Proofs.Construction.Account
import ModelText.Proofs.Construction.Walk

/-!
# Giving slots their values

What an element holds, its name and its links have nothing to do with its slots.
So work that only gives values to slots leaves alone what shows of elements. It
creates objects, but these are records.
-/

namespace ModelText

/-- Between the sessions slots were given values, and records were created. -/
structure Session.Fills (s t : Session) : Prop where
  graph : s.graph.Spares [] t.graph
  elements : t.graph.elements = s.graph.elements
  requests : t.requests = s.requests

namespace Session.Fills

variable {s t u : Session}

theorem refl (s : Session) : s.Fills s := ⟨.refl _ _, rfl, rfl⟩

theorem trans (h : s.Fills t) (h' : t.Fills u) : s.Fills u where
  graph := h.graph.trans h'.graph
  elements := h'.elements.trans h.elements
  requests := h'.requests.trans h.requests

theorem spares (h : s.Fills t) (but : List ObjectId) : s.Spares but t where
  graph := h.graph.mono (List.nil_subset _)
  requests :=
    ⟨[], by rw [h.requests, List.append_nil], fun _ h => by cases h⟩

theorem waiting (h : s.Fills t) : t.waiting = s.waiting :=
  congrArg LinkRequest.paths h.requests

end Session.Fills

/-- The work gives values to slots only, also if a fault ends it. -/
def Work.Fills {α : Type} (work : SessionWork α) (s : Session) : Prop :=
  ∀ r t, work.exec s = (r, t) → s.Fills t

namespace Work

variable {α β : Type} {s : Session} {work : SessionWork α}

theorem Fills.pure (a : α) : Fills (pure a) s := by
  rintro r t ⟨⟩
  exact .refl s

theorem Fills.fail (fault : Fault) (span : Span) :
    Fills (fail fault span : SessionWork α) s := by
  rintro r t ⟨⟩
  exact .refl s

theorem Fills.ofExcept (span : Span) (result : Except Fault α) :
    Fills (ofExcept span result) s := by
  cases result with
  | error fault => exact .fail fault span
  | ok a => exact .pure a

theorem Fills.bind {next : α → SessionWork β} (hw : Fills work s)
    (hn : ∀ a t, work.exec s = (.ok a, t) → Fills (next a) t) :
    Fills (work >>= next) s := by
  intro r t h
  rcases exec_bind_eq h with ⟨f, hr, -⟩ | ⟨a, u, hr, h⟩
  · exact hw _ t hr
  · exact (hw _ u hr).trans (hn a u hr r t h)

end Work

namespace SessionWork

open Work (Fills)

variable {s : Session}

theorem fills_report (unit : SourceUnit) (f : Spanned Fault) :
    Fills (report unit f) s := by
  rintro r t ⟨⟩
  exact ⟨.refl _ _, rfl, rfl⟩

theorem fills_recover (unit : SourceUnit) {work : SessionWork Unit}
    (h : Fills work s) : Fills (recover unit work) s := by
  intro r t hr
  rcases exec_recover_eq hr with hw | ⟨f, u, hw, -, -, rfl⟩
  · exact h r t hw
  · exact (h _ u hw).trans (fills_report unit f _ _ rfl)

theorem fills_setValue (attempt : Attempt) (span : Span) (slot : Slot)
    (object : ObjectId) (value : Value) :
    Fills (change attempt span (·.setValue slot object value)) s := by
  intro r t h
  cases hg : s.graph.setValue slot object value with
  | error e =>
    rw [exec_change_of_error hg] at h
    cases h
    exact .refl s
  | ok g =>
    rw [exec_change_of_ok hg] at h
    cases h
    cases Graph.setValue_eq_ok hg
    constructor
    · apply Graph.spares_update
      · exact fun _ => rfl
      · exact fun _ => rfl
      · exact fun _ _ => rfl
    · apply Graph.elements_update
      exact fun _ => rfl
    · rfl

theorem fills_instantiate (type : RecordType) :
    Fills (instantiate (.record type) false) s := by
  rintro r t ⟨⟩
  refine ⟨Graph.spares_instantiate _ _ _, ?_, rfl⟩
  exact (Graph.elements_instantiate _ _ _).trans (List.append_nil _)

theorem fills_assignBy (object : ObjectId) (type : StructuredType)
    (name : Spanned String) {value : Slot → SessionWork Value}
    (hv : ∀ slot, Fills (value slot) s) :
    Fills (assignBy object type name value) s := by
  unfold assignBy
  cases type.slot? name.value with
  | none => exact .fail _ _
  | some slot => exact .bind (hv slot) fun _ _ _ => fills_setValue _ _ _ _ _

mutual

theorem fills_value (m : Metamodel) (unit : SourceUnit) (slot : Slot)
    (span : Span) (literal : Literal) (s : Session) :
    Fills (value m unit slot span literal) s := by
  rw [value]
  cases m.lookup? slot.type with
  | none => exact .fail _ _
  | some type =>
    dsimp only
    split
    · next type fields =>
      apply Fills.bind (fills_instantiate type)
      intro object t _
      apply Fills.bind (fills_assignFields m unit object _ fields t)
      exact fun _ _ _ => .pure _
    · exact .ofExcept _ _

theorem fills_assignFields (m : Metamodel) (unit : SourceUnit)
    (object : ObjectId) (type : StructuredType) (fields : List Field)
    (s : Session) : Fills (assignFields m unit object type fields) s := by
  cases fields with
  | nil =>
    rw [assignFields]
    exact .pure _
  | cons field rest =>
    obtain ⟨name, literal, span⟩ := field
    rw [assignFields]
    apply Fills.bind
    · apply fills_recover
      apply fills_assignBy
      exact fun slot => fills_value m unit slot span literal s
    · intro _ t _
      exact fills_assignFields m unit object type rest t

end

theorem fills_assign (m : Metamodel) (unit : SourceUnit) (object : ObjectId)
    (type : StructuredType) (name : Spanned String)
    (literal : Spanned Literal) (s : Session) :
    Fills (assign m unit object type name literal) s :=
  fills_assignBy object type name fun slot => fills_value m unit slot _ _ s

/-- A link of a feature that is no reference means a slot, if anything. -/
theorem fills_link (ctx : BuildContext) (object : ObjectId) {type : ObjectType}
    {feature : Spanned String} (hf : type.reference? feature.value = none)
    (path : Spanned (List String)) (s : Session) :
    Fills (link ctx object type feature path) s := by
  unfold link
  rw [hf]
  dsimp only
  split
  · exact fills_assign _ _ _ _ _ _ s
  · exact .fail _ _

theorem fills_modifiers (ctx : BuildContext) (object : ObjectId)
    (type : StructuredType) (modifiers : List (Spanned String)) (s : Session) :
    Fills (modifiers.forM (applyModifier ctx object type)) s := by
  induction modifiers generalizing s with
  | nil => exact .pure _
  | cons modifier rest ih =>
    apply Fills.bind
    · unfold applyModifier
      exact .bind (.ofExcept _ _) fun _ _ _ => fills_setValue _ _ _ _ _
    · exact fun _ t _ => ih t

theorem fills_remarkPlace (unit : SourceUnit) (type : ObjectType)
    (atTop : Bool) (typeName : String) (span : Span) (s : Session) :
    Fills (remarkPlace unit type atTop typeName span) s := by
  unfold remarkPlace
  split
  · exact fills_report _ _
  · exact .pure _

theorem fills_needLanguage (languages : NameSet) (atTop : Bool) (span : Span)
    (s : Session) : Fills (needLanguage languages atTop span) s := by
  unfold needLanguage
  split
  · exact .fail _ _
  · exact .pure _

end SessionWork

end ModelText
