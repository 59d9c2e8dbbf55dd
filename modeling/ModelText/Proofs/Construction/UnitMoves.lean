import ModelText.Proofs.Construction.Moves

/-!
# Units make moves

Building a unit along its tree makes moves only, also if a fatal fault ends it.
Where a piece of the walk works on an element it knows the type of the element,
and the features it uses are features of that type.
-/

namespace ModelText

theorem featureNamed?_eq_some {features : List Feature} {name : String}
    {feature : Feature} (h : featureNamed? features name = some feature) :
    feature.name = name := by
  have := List.find?_some h
  simpa using this

theorem StructuredType.offers_of_slot? {type : StructuredType} {name : String}
    {slot : Slot} (h : type.slot? name = some slot) : type.Offers slot := by
  have hn : slot.name = name := by
    have := List.find?_some h
    simpa using this
  refine .inl ?_
  rw [hn]
  exact h

theorem Metamodel.admits_of_elementType {m : Metamodel} {languages : NameSet}
    {name : String} {type : ObjectType}
    (h : m.elementType languages name = .ok type) :
    m.Admits (.object type) := by
  unfold elementType at h
  split at h
  · cases h
  · rename_i found hv
    split at h
    · cases h
    · rename_i ha
      cases h
      exact ⟨by simpa using ha, name, languages, hv⟩
  · cases h

namespace SessionWork

open Work (Makes)

variable {m : Metamodel} {source : String} {s : Session} {object : ObjectId}

theorem makes_nameObject (object : ObjectId) (name : Option (Spanned String)) :
    Makes m source (nameObject object name) s fun _ _ => True := by
  cases name with
  | none => exact .pure trivial
  | some name =>
    unfold nameObject
    refine makes_change _ _ fun g h => ?_
    exact .name h

theorem makes_create (ctx : BuildContext) (languages : NameSet)
    (atTop : Bool) (typeWord : Spanned String)
    (name : Option (Spanned String)) (s : Session) :
    Makes ctx.metamodel ctx.unit.name
      (create ctx languages atTop typeWord name) s
      fun created t =>
        t.graph.type? created.1 = some (.object created.2) := by
  have hl : Makes ctx.metamodel ctx.unit.name
      (needLanguage languages atTop typeWord.span) s fun _ _ => True := by
    unfold needLanguage
    split
    · exact .fail _ _
    · exact .pure trivial
  have hr : ∀ (type : ObjectType) (typeName : String) (t : Session),
      Makes ctx.metamodel ctx.unit.name
        (remarkPlace ctx.unit type atTop typeName typeWord.span) t
        fun _ _ => True := by
    intro type typeName t
    unfold remarkPlace
    split
    · exact makes_report _ _
    · exact .pure trivial
  have he : ∀ (typeName : String) (t : Session),
      Makes ctx.metamodel ctx.unit.name
        (Work.ofExcept typeWord.span
          (ctx.metamodel.elementType languages typeName)) t
        fun type _ => ctx.metamodel.Admits (.object type) := fun _ _ =>
    .ofExcept _ fun _ ht => Metamodel.admits_of_elementType ht
  unfold create
  refine .bind hl fun _ s₁ _ _ => ?_
  refine .bind (he _ s₁) fun type s₂ _ ha => ?_
  refine .bind (hr type _ s₂) fun _ s₃ _ _ => ?_
  refine .bind (makes_instantiate ha _) fun object s₄ _ ht => ?_
  refine .bind (makes_nameObject object name) fun _ s₅ hm _ => ?_
  exact .pure (hm.type? ht)

theorem makes_applyModifier (ctx : BuildContext) (type : ObjectType)
    (modifier : Spanned String)
    (ht : s.graph.type? object = some (.object type)) :
    Makes ctx.metamodel ctx.unit.name
      (applyModifier ctx object (.object type) modifier) s fun _ _ => True := by
  have hx : Makes ctx.metamodel ctx.unit.name
      (Work.ofExcept modifier.span
        ((StructuredType.object type).modified ctx.metamodel modifier.value))
      s fun assignment _ => assignment.1 ∈ type.slots ∧
        ∀ g : Graph, g.Fits ctx.metamodel assignment.1 assignment.2 := by
    refine .ofExcept _ ?_
    rintro ⟨slot, value⟩ h
    obtain ⟨hs, ⟨rfl, name, hl⟩ | ⟨rfl, e, hl, he⟩⟩ :=
      StructuredType.modified_eq_ok h
    · exact ⟨hs, fun g => Graph.fits_of_primitive hl trivial⟩
    · exact ⟨hs, fun g => Graph.fits_of_enumerated hl he⟩
  unfold applyModifier
  refine .bind hx ?_
  rintro ⟨slot, value⟩ t hm ⟨hs, hf⟩
  exact makes_change _ _ fun g hg =>
    .assign (hm.type? ht) (.inr ⟨type, rfl, hs⟩) (hf t.graph) hg

theorem makes_modifiers (ctx : BuildContext) (type : ObjectType)
    (modifiers : List (Spanned String))
    (ht : s.graph.type? object = some (.object type)) :
    Makes ctx.metamodel ctx.unit.name
      (modifiers.forM (applyModifier ctx object (.object type))) s
      fun _ _ => True := by
  induction modifiers generalizing s with
  | nil => exact .pure trivial
  | cons modifier rest ih =>
    refine .bind (makes_applyModifier ctx type modifier ht) fun _ t hm _ => ?_
    exact ih (hm.type? ht)

theorem makes_declare (ctx : BuildContext) (languages : NameSet)
    (atTop : Bool) (modifiers : List (Spanned String))
    (typeWord : Spanned String) (name : Option (Spanned String))
    (s : Session) :
    Makes ctx.metamodel ctx.unit.name
      (declare ctx languages atTop modifiers typeWord name) s
      fun created t =>
        t.graph.type? created.1 = some (.object created.2) := by
  unfold declare
  refine .bind (makes_create ctx languages atTop typeWord name s) ?_
  rintro ⟨object, type⟩ t hm ht
  refine .bind (makes_modifiers ctx type modifiers ht)
    fun _ u hm' _ => ?_
  exact .pure (hm'.type? ht)

/-! ### Slots and links -/

theorem fits_of_value {g : Graph} {m : Metamodel} {slot : Slot}
    {type : TypeInfo} {literal : Literal} {value : Value}
    (hl : m.lookup? slot.type = some type)
    (h : type.value slot literal = .ok value) : g.Fits m slot value := by
  rcases TypeInfo.value_eq_ok h with ⟨p, rfl, hp⟩ | ⟨e, name, rfl, he, rfl⟩
  · obtain ⟨name, kind⟩ := p
    refine Graph.fits_of_primitive hl ?_
    dsimp only at hp
    unfold PrimitiveKind.value? at hp
    split at hp <;> cases hp <;> trivial
  · exact Graph.fits_of_enumerated hl he

theorem makes_assignBy {type : StructuredType} {name : Spanned String}
    {value : Slot → SessionWork Value}
    (ht : s.graph.type? object = some type)
    (hv : ∀ slot, Makes m source (value slot) s
      fun value t => t.graph.Fits m slot value) :
    Makes m source (assignBy object type name value) s fun _ _ => True := by
  unfold assignBy
  cases hs : type.slot? name.value with
  | none => exact .fail _ _
  | some slot =>
    refine .bind (hv slot) fun value t hm hf => ?_
    exact makes_change _ _ fun g hg =>
      .assign (hm.type? ht) (StructuredType.offers_of_slot? hs) hf hg

mutual

theorem makes_value (m : Metamodel) (unit : SourceUnit) (slot : Slot)
    (span : Span) (literal : Literal) (s : Session) :
    Makes m unit.name (value m unit slot span literal) s
      fun value t => t.graph.Fits m slot value := by
  have hs : ∀ type : TypeInfo, m.lookup? slot.type = some type →
      Makes m unit.name (Work.ofExcept span (type.value slot literal)) s
        fun value t => t.graph.Fits m slot value := fun type hl =>
    .ofExcept span fun _ h => fits_of_value hl h
  cases literal with
  | record fields =>
    rw [value]
    cases hl : m.lookup? slot.type with
    | none => exact .fail _ _
    | some type =>
      cases type with
      | record type =>
        have ha : m.Admits (.record type) := ⟨slot.type, hl⟩
        refine .bind (makes_instantiate ha _) fun object t _ ht => ?_
        refine .bind (makes_assignFields m unit object _ fields t ht)
          fun _ u hm _ => ?_
        exact .pure (Graph.fits_of_record hl (hm.type? ht))
      | object type => exact hs _ hl
      | enumerated type => exact hs _ hl
      | primitive type => exact hs _ hl
  | _ =>
    rw [value]
    cases hl : m.lookup? slot.type with
    | none => exact .fail _ _
    | some type => cases type <;> exact hs _ hl

theorem makes_assignFields (m : Metamodel) (unit : SourceUnit)
    (object : ObjectId) (type : StructuredType) (fields : List Field)
    (s : Session) (ht : s.graph.type? object = some type) :
    Makes m unit.name (assignFields m unit object type fields) s
      fun _ _ => True := by
  cases fields with
  | nil =>
    rw [assignFields]
    exact .pure trivial
  | cons field rest =>
    obtain ⟨name, literal, span⟩ := field
    rw [assignFields]
    refine .bind (makes_recover (makes_assignBy ht fun slot => ?_))
      fun _ t hm _ => ?_
    · exact makes_value m unit slot span literal s
    · exact makes_assignFields m unit object type rest t (hm.type? ht)

end

theorem makes_assign (ctx : BuildContext) (type : StructuredType)
    (name : Spanned String) (literal : Spanned Literal)
    (ht : s.graph.type? object = some type) :
    Makes ctx.metamodel ctx.unit.name
      (assign ctx.metamodel ctx.unit object type name literal) s
      fun _ _ => True :=
  makes_assignBy ht fun _ => makes_value _ _ _ _ _ s

theorem makes_link (ctx : BuildContext) (type : ObjectType)
    (feature : Spanned String) (path : Spanned (List String))
    (ht : s.graph.type? object = some (.object type)) :
    Makes ctx.metamodel ctx.unit.name (link ctx object type feature path) s
      fun _ _ => True := by
  unfold link
  cases hr : type.reference? feature.value with
  | some reference =>
    refine ⟨fun r t h => ?_, fun _ _ _ => trivial⟩
    simp only [deferLink, defer, Work.exec_modify, Prod.mk.injEq] at h
    rw [← h.2]
    refine .single (.defer s _ rfl ht ?_)
    rw [ObjectType.reference?, featureNamed?_eq_some hr]
    exact hr
  | none =>
    cases type.literalName? feature.value path.value with
    | none => exact .fail _ _
    | some name => exact makes_assign ctx (.object type) _ _ ht

theorem makes_attach (ctx : BuildContext) (span : Span) {type : ObjectType}
    {composition : Feature}
    (hc : type.composition? composition.name = some composition)
    (children : List ObjectId)
    (ht : s.graph.type? object = some (.object type)) :
    Makes ctx.metamodel ctx.unit.name
      (attach ctx span composition object children) s fun _ _ => True := by
  induction children generalizing s with
  | nil => exact .pure trivial
  | cons child rest ih =>
    refine .bind (makes_recover (makes_change _ _ fun _ hg =>
      .hold ht hc hg)) fun _ t hm _ => ?_
    exact ih (hm.type? ht)

end SessionWork

/-! ### Elements -/

open Work (Makes)

theorem ObjectType.composition?_of_compositionNamed {type : ObjectType}
    {name : String} {composition : Feature}
    (h : type.compositionNamed name = .ok composition) :
    type.composition? composition.name = some composition := by
  unfold compositionNamed at h
  split at h
  · rename_i found hf
    cases h
    rw [composition?, featureNamed?_eq_some hf]
    exact hf
  · cases h

mutual

theorem makes_walk (ctx : BuildContext) (languages : NameSet) (atTop : Bool)
    (d : Declaration) (s : Session) :
    Makes ctx.metamodel ctx.unit.name (d.walk ctx languages atTop) s
      fun object t => ∃ type, t.graph.type? object = some type := by
  obtain ⟨modifiers, typeWord, name, members, span⟩ := d
  rw [Declaration.walk]
  refine .bind (SessionWork.makes_declare ctx languages atTop modifiers
    typeWord name s) ?_
  rintro ⟨object, type⟩ t _ ht
  refine .bind (makes_memberWalk ctx languages members t ht)
    fun _ u hm _ => ?_
  exact .pure ⟨.object type, hm.type? ht⟩

theorem makes_memberWalk (ctx : BuildContext) (languages : NameSet)
    {object : ObjectId} {type : ObjectType} (members : List Member)
    (s : Session) (ht : s.graph.type? object = some (.object type)) :
    Makes ctx.metamodel ctx.unit.name
      (memberWalk ctx languages object type members) s fun _ _ => True := by
  cases members with
  | nil =>
    rw [memberWalk]
    exact .pure trivial
  | cons member rest =>
    cases member with
    | slot name value =>
      rw [memberWalk]
      refine .bind (SessionWork.makes_recover
        (SessionWork.makes_assign ctx _ name value ht)) fun _ t hm _ => ?_
      exact makes_memberWalk ctx languages rest t (hm.type? ht)
    | link feature path =>
      rw [memberWalk]
      refine .bind (SessionWork.makes_recover
        (SessionWork.makes_link ctx type feature path ht)) fun _ t hm _ => ?_
      exact makes_memberWalk ctx languages rest t (hm.type? ht)
    | block feature declarations span =>
      have hx : Makes ctx.metamodel ctx.unit.name
          (Work.ofExcept feature.span (type.compositionNamed feature.value)) s
          fun composition _ =>
            type.composition? composition.name = some composition :=
        .ofExcept _ fun _ h => ObjectType.composition?_of_compositionNamed h
      rw [memberWalk]
      refine .bind hx fun composition t hm hc => ?_
      refine .bind (makes_declarationWalk ctx languages declarations t)
        fun children u hm' _ => ?_
      have ht' := hm'.type? (hm.type? ht)
      refine .bind (SessionWork.makes_attach ctx feature.span hc children ht')
        fun _ v hm'' _ => ?_
      exact makes_memberWalk ctx languages rest v (hm''.type? ht')

theorem makes_declarationWalk (ctx : BuildContext) (languages : NameSet)
    (declarations : List Declaration) (s : Session) :
    Makes ctx.metamodel ctx.unit.name
      (declarationWalk ctx languages declarations) s fun _ _ => True := by
  cases declarations with
  | nil =>
    rw [declarationWalk]
    exact .pure trivial
  | cons d rest =>
    rw [declarationWalk]
    refine .bind (makes_walk ctx languages false d s) fun _ t _ _ => ?_
    refine .bind (makes_declarationWalk ctx languages rest t) fun _ _ _ _ => ?_
    exact .pure trivial

end

/-! ### Units -/

namespace Walk

/-- The roots of a unit are objects. -/
def RootsThere (w : Walk) : Prop :=
  ∀ id ∈ w.roots, ∃ type, w.graph.type? id = some type

theorem moves_declareLanguage (w : Walk) (ctx : BuildContext)
    (name : Spanned String) :
    w.toSession.Moves ctx.metamodel ctx.unit.name
      (w.declareLanguage ctx name).toSession := by
  unfold declareLanguage
  split
  · exact .refl
  · split
    · exact SessionWork.moves_reportFault ctx.unit w.toSession _
    · exact .refl

theorem moves_items (ctx : BuildContext) (items : List Item) (w : Walk) :
    w.toSession.Moves ctx.metamodel ctx.unit.name
      (w.items ctx items).toSession := by
  induction items generalizing w with
  | nil => exact .refl
  | cons item rest ih =>
    cases item with
    | language name => exact (moves_declareLanguage w ctx name).trans (ih _)
    | importUnit name =>
      exact ih { w with imports := w.imports.insert name.value }
    | declaration d =>
      have hd := makes_walk ctx w.languages true d w.toSession
      rw [Walk.items]
      rcases hw : (d.walk ctx w.languages true).exec w.toSession
        with ⟨f | object, s⟩
      · exact (hd.moves _ _ hw).trans
          (SessionWork.moves_reportFault ctx.unit s f)
      · have hc : ((({ w with toSession := s } : Walk).collect ctx
            object).toSession) = s := by
          unfold collect
          split <;> rfl
        have hr := ih (({ w with toSession := s } : Walk).collect ctx object)
        rw [hc] at hr
        exact (hd.moves _ _ hw).trans hr

theorem RootsThere.moved {w : Walk} {s : Session} {m : Metamodel}
    {source : String} (h : w.RootsThere) (hm : w.toSession.Moves m source s)
    {id : ObjectId} (hi : id ∈ w.roots) : ∃ type, s.graph.type? id = some type := by
  obtain ⟨type, ht⟩ := h id hi
  exact ⟨type, hm.type? ht⟩

theorem RootsThere.items {w : Walk} (h : w.RootsThere) (ctx : BuildContext)
    (items : List Item) : (w.items ctx items).RootsThere := by
  induction items generalizing w with
  | nil => exact h
  | cons item rest ih =>
    cases item with
    | language name =>
      refine ih fun id hi => ?_
      rw [declareLanguage_roots] at hi
      exact h.moved (moves_declareLanguage w ctx name) hi
    | importUnit name => exact ih h
    | declaration d =>
      have hd := makes_walk ctx w.languages true d w.toSession
      rw [Walk.items]
      rcases hw : (d.walk ctx w.languages true).exec w.toSession
        with ⟨f | object, s⟩
      · exact fun id hi => h.moved ((hd.moves _ _ hw).trans
          (SessionWork.moves_reportFault ctx.unit s f)) hi
      · refine ih fun id hi => ?_
        unfold collect at hi ⊢
        split at hi
        · rw [if_pos ‹_›]
          rcases List.mem_append.1 hi with hi | hi
          · exact h.moved (hd.moves _ _ hw) hi
          · rw [List.mem_singleton.1 hi]
            exact hd.post _ _ hw
        · rw [if_neg ‹_›]
          exact h.moved (hd.moves _ _ hw) hi

end Walk

namespace Session

theorem moves_foldl_reportIn {m : Metamodel} (unit : SourceUnit)
    (diagnostics : List Diagnostic) (s : Session) :
    s.Moves m unit.name (diagnostics.foldl (·.reportIn unit ·) s) := by
  induction diagnostics generalizing s with
  | nil => exact .refl
  | cons d rest ih =>
    exact .head (.report s _ (Problem.source_locate _ _ _)) (ih _)

theorem moves_walkUnit (s : Session) (ctx : BuildContext) :
    s.Moves ctx.metamodel ctx.unit.name (s.walkUnit ctx).2 := by
  unfold walkUnit
  cases SourceTree.ofSource ctx.unit.text with
  | error diagnostics => exact moves_foldl_reportIn ctx.unit diagnostics s
  | ok tree =>
    exact Walk.moves_items ctx tree.items ⟨s, .empty, .empty, []⟩

theorem roots_walkUnit (s : Session) (ctx : BuildContext) {id : ObjectId}
    (h : id ∈ (s.walkUnit ctx).1.roots) :
    ∃ type, (s.walkUnit ctx).2.graph.type? id = some type := by
  unfold walkUnit at h ⊢
  cases ht : SourceTree.ofSource ctx.unit.text with
  | error diagnostics =>
    rw [ht] at h
    cases h
  | ok tree =>
    rw [ht] at h
    have hw : (⟨s, .empty, .empty, []⟩ : Walk).RootsThere :=
      fun id hi => absurd hi List.not_mem_nil
    exact hw.items ctx tree.items id h

end Session

end ModelText
