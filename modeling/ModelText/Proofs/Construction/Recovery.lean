import ModelText.Proofs.Construction.Walk

/-!
# What holds of all work on an element

The work on an element is put together from few parts: objects are created and
changed, faults end the work or are reported, links are put aside. `Composes`
says of a property of work that these parts have it and that it goes over from
them to what is put together of them; which faults may end the work is left open.

Behind a fault that is not fatal the work goes on. So there are two properties:
one of the work that is recovered from, whatever ends it, and one of the work
around it, which only fatal faults end. `Recovering` says how they go together,
and then the one holds of the values of all literals and the other one of all
elements.

These are properties of work in any session. One that is kept in some sessions
only has the session in its statement, and is carried along the walk by itself.
-/

namespace ModelText

namespace SessionWork

/-- The property goes over from the parts of work to the whole, if only faults
end it that are allowed. -/
structure Composes (unit : SourceUnit) (allowed : Fault → Prop)
    (P : ∀ ⦃α : Type⦄, SessionWork α → Prop) : Prop where
  done {α : Type} (a : α) : P (pure a : SessionWork α)
  bind {α β : Type} {work : SessionWork α} {next : α → SessionWork β}
    (h : P work) (hn : ∀ a, P (next a)) : P (work >>= next)
  fail {α : Type} {fault : Fault} (h : allowed fault) (span : Span) :
    P (Work.fail fault span : SessionWork α)
  remark {f : Spanned Fault} (h : f.value.severity.isFatal = false) :
    P (report unit f)
  instantiate (type : StructuredType) (isRoot : Bool) :
    P (instantiate type isRoot)
  change {attempt : Attempt} {f : Graph → Except Graph.Error Graph}
    (h : ∀ g e, f g = .error e → allowed (.refused e attempt)) (span : Span) :
    P (change attempt span f)
  defer (request : LinkRequest) : P (defer request)

/-- The one property holds of work that is recovered from, the other one of the
work around it. -/
structure Recovering (unit : SourceUnit)
    (Q P : ∀ ⦃α : Type⦄, SessionWork α → Prop) : Prop where
  inner : Composes unit (fun _ => True) Q
  outer : Composes unit (·.severity.isFatal = true) P
  recover {work : SessionWork Unit} (h : Q work) : P (recover unit work)
  weaken {α : Type} {work : SessionWork α} (h : P work) : Q work

namespace Composes

variable {unit : SourceUnit} {allowed : Fault → Prop}
  {P : ∀ ⦃α : Type⦄, SessionWork α → Prop} {α : Type}

theorem ofExcept (h : Composes unit allowed P) (span : Span)
    {result : Except Fault α}
    (hr : ∀ fault, result = .error fault → allowed fault) :
    P (Work.ofExcept span result : SessionWork α) := by
  cases result with
  | ok a => exact h.done a
  | error fault => exact h.fail (hr fault rfl) span

theorem forM (h : Composes unit allowed P) {f : α → SessionWork Unit}
    (hf : ∀ a, P (f a)) (list : List α) : P (list.forM f) := by
  induction list with
  | nil => exact h.done _
  | cons a rest ih => exact h.bind (hf a) fun _ => ih

end Composes

/-! ### Faults that are fatal -/

theorem elementType_fatal {m : Metamodel} {languages : NameSet} {name : String}
    {fault : Fault} (h : m.elementType languages name = .error fault) :
    fault.severity.isFatal = true := by
  unfold Metamodel.elementType at h
  split at h
  · cases h
    rfl
  · split at h
    · cases h
      rfl
    · cases h
  · cases h
    rfl

theorem modified_fatal {m : Metamodel} {type : StructuredType} {tag : String}
    {fault : Fault} (h : type.modified m tag = .error fault) :
    fault.severity.isFatal = true := by
  rcases StructuredType.modified_eq_error h with rfl | ⟨slot, -, rfl, -⟩
  · rfl
  · rfl

theorem compositionNamed_fatal {type : ObjectType} {name : String}
    {fault : Fault} (h : type.compositionNamed name = .error fault) :
    fault.severity.isFatal = true := by
  unfold ObjectType.compositionNamed at h
  split at h
  · cases h
  · cases h
    rfl

/-- Names and values are refused only for want of the object. -/
theorem setName_fatal (attempt : Attempt) {g : Graph} {id : ObjectId}
    {name : String} {e : Graph.Error} (h : g.setName id name = .error e) :
    (Fault.refused e attempt).severity.isFatal = true := by
  rw [Graph.setName_eq] at h
  cases ho : g.object? id with
  | none =>
    rw [ho] at h
    cases h
    rfl
  | some o =>
    rw [ho] at h
    cases h

theorem setValue_fatal (attempt : Attempt) {g : Graph} {slot : Slot}
    {id : ObjectId} {value : Value} {e : Graph.Error}
    (h : g.setValue slot id value = .error e) :
    (Fault.refused e attempt).severity.isFatal = true := by
  rw [Graph.setValue_eq] at h
  cases ho : g.object? id with
  | none =>
    rw [ho] at h
    cases h
    rfl
  | some o =>
    rw [ho] at h
    cases h

/-! ### The parts of the walk -/

namespace Recovering

variable {unit : SourceUnit} {ctx : BuildContext}
  {P Q : ∀ ⦃α : Type⦄, SessionWork α → Prop}

theorem create (h : Recovering ctx.unit Q P) (languages : NameSet)
    (atTop : Bool) (typeWord : Spanned String)
    (name : Option (Spanned String)) :
    P (create ctx languages atTop typeWord name) := by
  unfold SessionWork.create
  refine h.outer.bind ?_ fun _ =>
    h.outer.bind (h.outer.ofExcept _ fun _ => elementType_fatal) fun type =>
      h.outer.bind ?_ fun _ => h.outer.bind (h.outer.instantiate _ _)
        fun object => h.outer.bind ?_ fun _ => h.outer.done _
  · unfold needLanguage
    split
    · exact h.outer.fail rfl _
    · exact h.outer.done _
  · unfold remarkPlace
    split
    · exact h.outer.remark rfl
    · exact h.outer.done _
  · cases name with
    | none => exact h.outer.done _
    | some name =>
      unfold nameObject
      exact h.outer.change (fun _ _ => setName_fatal .name) _

theorem applyModifier (h : Recovering ctx.unit Q P) (object : ObjectId)
    (type : StructuredType) (modifier : Spanned String) :
    P (applyModifier ctx object type modifier) :=
  h.outer.bind (h.outer.ofExcept _ fun _ => modified_fatal) fun _ =>
    h.outer.change (fun _ _ => setValue_fatal .modifier) _

theorem declare (h : Recovering ctx.unit Q P) (languages : NameSet)
    (atTop : Bool) (modifiers : List (Spanned String))
    (typeWord : Spanned String) (name : Option (Spanned String)) :
    P (declare ctx languages atTop modifiers typeWord name) :=
  h.outer.bind (h.create _ _ _ _) fun _ =>
    h.outer.bind (h.outer.forM (h.applyModifier _ _) _) fun _ => h.outer.done _

theorem attach (h : Recovering ctx.unit Q P) (span : Span)
    (composition : Feature) (parent : ObjectId) (children : List ObjectId) :
    P (attach ctx span composition parent children) :=
  h.outer.forM (fun _ => h.recover
    (h.inner.change (fun _ _ _ => trivial) _)) children

theorem assignBy (h : Recovering unit Q P) (object : ObjectId)
    (type : StructuredType) (name : Spanned String)
    {value : Slot → SessionWork Value} (hv : ∀ slot, Q (value slot)) :
    Q (assignBy object type name value) := by
  unfold SessionWork.assignBy
  cases type.slot? name.value with
  | none => exact h.inner.fail trivial _
  | some slot =>
    exact h.inner.bind (hv slot) fun _ =>
      h.inner.change (fun _ _ _ => trivial) _

mutual

theorem value (h : Recovering unit Q P) (m : Metamodel) (slot : Slot)
    (span : Span) (literal : Literal) : Q (value m unit slot span literal) := by
  cases literal with
  | record fields =>
    rw [SessionWork.value]
    cases m.lookup? slot.type with
    | none => exact h.inner.fail trivial _
    | some type =>
      cases type with
      | record type =>
        exact h.inner.bind (h.inner.instantiate _ _) fun object =>
          h.inner.bind (h.weaken (h.assignFields m object _ fields)) fun _ =>
            h.inner.done _
      | _ => exact h.inner.ofExcept _ fun _ _ => trivial
  | _ =>
    rw [SessionWork.value]
    cases m.lookup? slot.type with
    | none => exact h.inner.fail trivial _
    | some type => cases type <;> exact h.inner.ofExcept _ fun _ _ => trivial

/-- A fault in a field is recovered from, so no fault that is not fatal ends the
work on a record. -/
theorem assignFields (h : Recovering unit Q P) (m : Metamodel)
    (object : ObjectId) (type : StructuredType) (fields : List Field) :
    P (assignFields m unit object type fields) := by
  cases fields with
  | nil =>
    rw [SessionWork.assignFields]
    exact h.outer.done _
  | cons field rest =>
    obtain ⟨name, literal, span⟩ := field
    rw [SessionWork.assignFields]
    refine h.outer.bind (h.recover (h.assignBy _ _ _ fun slot => ?_))
      fun _ => h.assignFields m object type rest
    exact h.value m slot span literal

end

theorem assign (h : Recovering unit Q P) (m : Metamodel) (object : ObjectId)
    (type : StructuredType) (name : Spanned String)
    (literal : Spanned Literal) : Q (assign m unit object type name literal) :=
  h.assignBy _ _ _ fun _ => h.value _ _ _ _

theorem link (h : Recovering ctx.unit Q P) (object : ObjectId)
    (type : ObjectType) (feature : Spanned String)
    (path : Spanned (List String)) : Q (link ctx object type feature path) := by
  unfold SessionWork.link
  cases type.reference? feature.value with
  | some reference => exact h.inner.defer _
  | none =>
    cases type.literalName? feature.value path.value with
    | some name => exact h.assign _ _ _ _ _
    | none => exact h.inner.fail trivial _

/-! ### The walk -/

mutual

theorem walk (h : Recovering ctx.unit Q P) (languages : NameSet)
    (atTop : Bool) (d : Declaration) : P (d.walk ctx languages atTop) := by
  obtain ⟨modifiers, typeWord, name, members, span⟩ := d
  rw [Declaration.walk]
  refine h.outer.bind (h.declare _ _ _ _ _) ?_
  rintro ⟨object, type⟩
  exact h.outer.bind (h.memberWalk languages object type members) fun _ =>
    h.outer.done _

theorem memberWalk (h : Recovering ctx.unit Q P) (languages : NameSet)
    (object : ObjectId) (type : ObjectType) (members : List Member) :
    P (memberWalk ctx languages object type members) := by
  cases members with
  | nil =>
    rw [ModelText.memberWalk]
    exact h.outer.done _
  | cons member rest =>
    have hr := h.memberWalk languages object type rest
    cases member with
    | slot name value =>
      rw [ModelText.memberWalk]
      exact h.outer.bind (h.recover (h.assign _ _ _ _ _)) fun _ => hr
    | link feature path =>
      rw [ModelText.memberWalk]
      exact h.outer.bind (h.recover (h.link _ _ _ _)) fun _ => hr
    | block feature declarations span =>
      rw [ModelText.memberWalk]
      refine h.outer.bind (h.outer.ofExcept _ fun _ => compositionNamed_fatal)
        fun composition => h.outer.bind (h.declarationWalk languages declarations)
          fun children => h.outer.bind (h.attach _ _ _ _) fun _ => hr

theorem declarationWalk (h : Recovering ctx.unit Q P) (languages : NameSet)
    (declarations : List Declaration) :
    P (declarationWalk ctx languages declarations) := by
  cases declarations with
  | nil =>
    rw [ModelText.declarationWalk]
    exact h.outer.done _
  | cons d rest =>
    rw [ModelText.declarationWalk]
    exact h.outer.bind (h.walk languages false d) fun _ =>
      h.outer.bind (h.declarationWalk languages rest) fun _ => h.outer.done _

end

end Recovering

end SessionWork

end ModelText
