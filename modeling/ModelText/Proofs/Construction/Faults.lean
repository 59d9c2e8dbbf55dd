import ModelText.Proofs.Compilation.Conformance
import ModelText.Proofs.Construction.IsolatedUnit

/-!
# Which faults units can have

Some causes of faults are there for lists of events that no text has, and for
metamodels that no check lets pass: an end without a start, a slot of no known
type, an element that is attached twice. Over a catalog that was checked, none
of them arises, whatever the unit contains. `Fault.Arises` lists what is left.

The tree of a unit accounts for the first kind: along the tree every end has its
start, and slots and features belong to an element. For the second kind the
proofs need what is known of the session. It conforms to the catalog, so slots
have types; objects do not disappear; and the elements of a block were created
in it, so nobody holds them when it ends.
-/

namespace ModelText

/-- The slot can be used as a modifier by its own name or by those of its
literals. -/
def Catalog.Switches (c : Catalog) (slot : Slot) : Prop :=
  (∃ e, c.lookup? slot.type = some (.enumerated e)) ∨
    ∃ name, c.lookup? slot.type = some (.primitive ⟨name, .boolean⟩)

namespace Fault

/-- The fault is one of a broken list of events, a broken metamodel or a broken
graph. -/
def IsBroken : Fault → Prop
  | .endWithoutStart => True
  | .endWithoutBlock => True
  | .slotOutside => True
  | .featureOutside _ => True
  | .noFeatures _ => True
  | .untypedSlot _ => True
  | .refused (.alreadyHeld _) _ => True
  | .refused (.unknownObject _) _ => True
  | _ => False

/-- A unit can have the fault. -/
def Arises (c : Catalog) : Fault → Prop
  | .unknownSlot name type => c.HasObjects type ∧ type.slot? name = none
  | .unsuitableModifier tag slotType => ∃ type slot, c.HasObjects type ∧
      type.slot? tag = some slot ∧ slot.type = slotType ∧ ¬c.Switches slot
  | fault => ¬fault.IsBroken

theorem Arises.not_isBroken {c : Catalog} {fault : Fault}
    (h : fault.Arises c) : ¬fault.IsBroken := by
  cases fault with
  | unknownSlot | unsuitableModifier => exact id
  | _ => exact h

end Fault

/-- The problem tells of a fault that a unit can have. -/
def Problem.Arises (p : Problem) (c : Catalog) : Prop :=
  ∃ f, p.diagnostic = Fault.diagnostic f ∧ f.value.Arises c

/-- What was reported between two sinks are faults that units can have. -/
def Sink.Told (c : Catalog) (s t : Sink) : Prop :=
  ∀ source, ∀ p ∈ t.problems source, p ∈ s.problems source ∨ p.Arises c

namespace Sink.Told

variable {c : Catalog} {s t u : Sink}

theorem refl (c : Catalog) (s : Sink) : Told c s s := fun _ _ h => .inl h

theorem trans (h : Told c s t) (h' : Told c t u) : Told c s u := by
  intro source p hp
  rcases h' source p hp with hp | hp
  · exact h source p hp
  · exact .inr hp

theorem report {p : Problem} (h : p.Arises c) : Told c s (s.report p) := by
  intro source q hq
  rw [Sink.problems_report] at hq
  split at hq
  · rcases List.mem_append.1 hq with hq | hq
    · exact .inl hq
    · rw [List.mem_singleton.1 hq]
      exact .inr h
  · exact .inl hq

end Sink.Told

/-- The work is ended by faults that units can have, and reports no others. -/
structure Work.Tells {α : Type} (c : Catalog) (work : SessionWork α)
    (s : Session) : Prop where
  thrown : ∀ f t, work.exec s = (.error f, t) → f.value.Arises c
  told : ∀ r t, work.exec s = (r, t) → Sink.Told c s.sink t.sink

namespace Work

variable {α β : Type} {c : Catalog} {s : Session} {work : SessionWork α}

theorem Tells.pure (a : α) : Tells c (pure a) s where
  thrown f t h := by cases h
  told r t h := by
    cases h
    exact .refl c _

theorem Tells.fail {fault : Fault} (h : fault.Arises c) (span : Span) :
    Tells c (fail fault span : SessionWork α) s where
  thrown f t hf := by
    cases hf
    exact h
  told r t h := by
    cases h
    exact .refl c _

theorem Tells.ofExcept {result : Except Fault α} (span : Span)
    (h : ∀ fault, result = .error fault → fault.Arises c) :
    Tells c (ofExcept span result) s := by
  cases result with
  | error fault => exact .fail (h fault rfl) span
  | ok a => exact .pure a

theorem Tells.bind {next : α → SessionWork β} (hw : Tells c work s)
    (hn : ∀ a t, work.exec s = (.ok a, t) → Tells c (next a) t) :
    Tells c (work >>= next) s where
  thrown f t h := by
    rcases exec_bind_eq h with ⟨g, hr, hg⟩ | ⟨a, u, hr, h⟩
    · cases hg
      exact hw.thrown f t hr
    · exact (hn a u hr).thrown f t h
  told r t h := by
    rcases exec_bind_eq h with ⟨g, hr, -⟩ | ⟨a, u, hr, h⟩
    · exact hw.told _ t hr
    · exact (hw.told _ u hr).trans ((hn a u hr).told r t h)

end Work

namespace SessionWork

open Work (Tells Makes)

variable {c : Catalog} {s : Session} {object : ObjectId}

theorem told_reportFault (unit : SourceUnit) (s : Session) {f : Spanned Fault}
    (h : f.value.Arises c) :
    Sink.Told c s.sink (s.reportFault unit f).sink :=
  .report ⟨f, Problem.diagnostic_locate _ _ _, h⟩

theorem tells_report (unit : SourceUnit) {f : Spanned Fault}
    (h : f.value.Arises c) : Tells c (report unit f) s where
  thrown _ _ hf := by cases hf
  told r t hr := by
    cases hr
    exact told_reportFault unit s h

theorem tells_recover (unit : SourceUnit) {work : SessionWork Unit}
    (h : Tells c work s) : Tells c (recover unit work) s where
  thrown f t hr := by
    rcases exec_recover_eq hr with hw | ⟨_, _, _, _, hn, _⟩
    · exact h.thrown f t hw
    · cases hn
  told r t hr := by
    rcases exec_recover_eq hr with hw | ⟨f, u, hw, -, -, rfl⟩
    · exact h.told r t hw
    · exact (h.told _ u hw).trans (told_reportFault unit u (h.thrown f u hw))

theorem tells_instantiate (type : StructuredType) (isRoot : Bool) :
    Tells c (instantiate type isRoot) s where
  thrown _ _ hf := by cases hf
  told r t hr := by
    cases hr
    exact .refl c _

theorem tells_change {attempt : Attempt} {span : Span}
    {f : Graph → Except Graph.Error Graph}
    (h : ∀ e, f s.graph = .error e →
      (Fault.refused e attempt).Arises c) :
    Tells c (change attempt span f) s := by
  cases hg : f s.graph with
  | error e =>
    constructor
    · intro fault t hf
      rw [exec_change_of_error hg] at hf
      cases hf
      exact h e hg
    · intro r t hr
      rw [exec_change_of_error hg] at hr
      cases hr
      exact .refl c _
  | ok g =>
    constructor
    · intro fault t hf
      rw [exec_change_of_ok hg] at hf
      cases hf
    · intro r t hr
      rw [exec_change_of_ok hg] at hr
      cases hr
      exact .refl c _

theorem tells_setName {type : StructuredType}
    (ht : s.graph.type? object = some type) (attempt : Attempt) (span : Span)
    (name : String) :
    Tells c (change attempt span (·.setName object name)) s := by
  obtain ⟨o, ho, -⟩ := Option.map_eq_some_iff.1 ht
  apply tells_change
  intro e h
  rw [Graph.setName_eq, ho] at h
  cases h

theorem tells_setValue {type : StructuredType}
    (ht : s.graph.type? object = some type) (attempt : Attempt) (span : Span)
    (slot : Slot) (value : Value) :
    Tells c (change attempt span (·.setValue slot object value)) s := by
  obtain ⟨o, ho, -⟩ := Option.map_eq_some_iff.1 ht
  apply tells_change
  intro e h
  rw [Graph.setValue_eq, ho] at h
  cases h

theorem tells_addChild {type : StructuredType}
    (ht : s.graph.type? object = some type) {child : ObjectId}
    (hf : s.graph.Free child) (attempt : Attempt) (span : Span)
    (composition : Feature) :
    Tells c (change attempt span (·.addChild composition object child)) s := by
  obtain ⟨o, ho, -⟩ := Option.map_eq_some_iff.1 ht
  obtain ⟨held, hh, hp⟩ := hf
  apply tells_change
  intro e h
  simp only [Graph.addChild_eq, ho, hh, hp, Option.isSome_none,
    Bool.false_eq_true, if_false] at h
  split at h
  · cases h
    exact id
  · split at h
    · cases h
      exact id
    · cases h

/-! ### Elements and their modifiers -/

theorem arises_of_elementType {m : Metamodel} {languages : NameSet}
    {name : String} {fault : Fault}
    (h : m.elementType languages name = .error fault) : fault.Arises c := by
  unfold Metamodel.elementType at h
  split at h
  · cases h
    exact id
  · split at h
    · cases h
      exact id
    · cases h
  · cases h
    exact id

theorem arises_of_modified {type : StructuredType} (ht : c.HasObjects type)
    {tag : String} {fault : Fault}
    (h : type.modified c.metamodel tag = .error fault) : fault.Arises c := by
  rcases StructuredType.modified_eq_error h with
    rfl | ⟨slot, hs, rfl, he, hb⟩
  · exact id
  · refine ⟨type, slot, ht, hs, rfl, ?_⟩
    rintro (⟨e, hx⟩ | ⟨name, hx⟩)
    · exact he e hx
    · exact hb name hx

theorem tells_create (ctx : BuildContext) (languages : NameSet)
    (atTop : Bool) (typeWord : Spanned String)
    (name : Option (Spanned String)) (s : Session) :
    Tells c (create ctx languages atTop typeWord name) s := by
  unfold create
  apply Tells.bind
  · unfold needLanguage
    split
    · exact .fail id _
    · exact .pure _
  intro _ s₁ _
  apply Tells.bind
  · exact .ofExcept _ fun _ h => arises_of_elementType h
  intro type s₂ _
  apply Tells.bind
  · unfold remarkPlace
    split
    · exact tells_report _ id
    · exact .pure _
  intro _ s₃ _
  apply Tells.bind
  · exact tells_instantiate _ _
  intro object s₄ h
  have ht : s₄.graph.type? object = some (.object type) := by
    cases h
    exact Graph.type?_instantiate_self _ _ _
  apply Tells.bind
  · cases name with
    | none => exact .pure _
    | some name => exact tells_setName ht _ _ _
  exact fun _ _ _ => .pure _

theorem tells_applyModifier (ctx : BuildContext)
    (hm : ctx.metamodel = c.metamodel) {type : StructuredType}
    (hc : c.HasObjects type) (ht : s.graph.type? object = some type)
    (modifier : Spanned String) :
    Tells c (applyModifier ctx object type modifier) s := by
  unfold applyModifier
  rw [hm]
  apply Tells.bind
  · exact .ofExcept _ fun _ h => arises_of_modified hc h
  · intro assignment t h
    obtain ⟨-, rfl⟩ := Work.exec_ofExcept_eq_ok h
    exact tells_setValue ht _ _ _ _

theorem tells_modifiers (ctx : BuildContext)
    (hm : ctx.metamodel = c.metamodel) {type : ObjectType}
    (hc : c.HasObjects (.object type))
    (ht : s.graph.type? object = some (.object type))
    (modifiers : List (Spanned String)) :
    Tells c (modifiers.forM (applyModifier ctx object (.object type))) s := by
  induction modifiers generalizing s with
  | nil => exact .pure _
  | cons modifier rest ih =>
    apply Tells.bind (tells_applyModifier ctx hm hc ht modifier)
    intro _ t h
    have hmoves := (makes_applyModifier ctx type modifier ht).moves _ t h
    exact ih (hmoves.type? ht)

/-! ### Slots and links -/

theorem arises_of_value {slot : Slot} {type : TypeInfo} {literal : Literal}
    {fault : Fault} (h : type.value slot literal = .error fault) :
    fault.Arises c := by
  unfold TypeInfo.value at h
  split at h
  · split at h
    · cases h
    · cases h
      exact id
  · split at h
    · cases h
    · cases h
      exact id
  · cases h
    exact id

theorem tells_assignBy {m : Metamodel} {source : String}
    {type : StructuredType} (hc : c.HasObjects type)
    (ht : s.graph.type? object = some type) {name : Spanned String}
    {value : Slot → SessionWork Value}
    (hm : ∀ slot r t, (value slot).exec s = (r, t) → s.Moves m source t)
    (hv : ∀ slot, type.slot? name.value = some slot → Tells c (value slot) s) :
    Tells c (assignBy object type name value) s := by
  unfold assignBy
  cases hs : type.slot? name.value with
  | none =>
    apply Tells.fail
    exact ⟨hc, hs⟩
  | some slot =>
    apply Tells.bind (hv slot hs)
    intro value t h
    exact tells_setValue ((hm slot _ t h).type? ht) _ _ _ _

section

variable (hc : c.WellFormed)
include hc

mutual

theorem tells_value (unit : SourceUnit) (slot : Slot) (span : Span)
    (literal : Literal) (s : Session) (hs : s.Conforms c)
    (hx : ∃ type, c.lookup? slot.type = some type) :
    Tells c (value c.metamodel unit slot span literal) s := by
  obtain ⟨type, hl⟩ := hx
  have hl' : c.metamodel.lookup? slot.type = some type := hl
  have ho (type : TypeInfo) :
      Tells c (Work.ofExcept span (type.value slot literal)) s :=
    .ofExcept span fun _ h => arises_of_value h
  rw [value, hl']
  dsimp only
  split
  · next type fields =>
    apply Tells.bind (tells_instantiate _ _)
    intro object t h
    have ha : c.metamodel.Admits (.record type) := ⟨slot.type, hl'⟩
    have hi : Makes c.metamodel unit.name (instantiate (.record type) false) s
        _ := makes_instantiate ha false
    apply Tells.bind (tells_assignFields unit object (.record type) fields t
      ((hi.moves _ t h).conforms hc hs) (hi.post _ t h))
    exact fun _ _ _ => .pure _
  · exact ho _

theorem tells_assignFields (unit : SourceUnit) (object : ObjectId)
    (type : StructuredType) (fields : List Field) (s : Session)
    (hs : s.Conforms c) (ht : s.graph.type? object = some type) :
    Tells c (assignFields c.metamodel unit object type fields) s := by
  cases fields with
  | nil =>
    rw [assignFields]
    exact .pure _
  | cons field rest =>
    obtain ⟨name, literal, span⟩ := field
    rw [assignFields]
    apply Tells.bind
    · apply tells_recover
      apply tells_assignBy (hs.graph.hasObjects ht) ht
      · exact fun slot =>
          (makes_value c.metamodel unit slot span literal s).moves
      · intro slot hn
        obtain ⟨found, hl, -⟩ :=
          (hc.slotSound (hs.graph.hasObjects ht) hn).type
        exact tells_value unit slot span literal s hs ⟨found, hl⟩
    · intro _ t h
      have hv (slot : Slot) :=
        makes_value c.metamodel unit slot span literal s
      have hm := (makes_recover (makes_assignBy ht hv)).moves _ t h
      exact tells_assignFields unit object type rest t (hm.conforms hc hs)
        (hm.type? ht)

end

theorem tells_assign (ctx : BuildContext)
    (hm : ctx.metamodel = c.metamodel) (hs : s.Conforms c)
    {type : StructuredType} (ht : s.graph.type? object = some type)
    (name : Spanned String) (literal : Spanned Literal) :
    Tells c (assign ctx.metamodel ctx.unit object type name literal) s := by
  rw [hm]
  apply tells_assignBy (hs.graph.hasObjects ht) ht
  · exact fun slot => (makes_value c.metamodel ctx.unit slot literal.span
      literal.value s).moves
  · intro slot hn
    obtain ⟨found, hl, -⟩ := (hc.slotSound (hs.graph.hasObjects ht) hn).type
    exact tells_value hc ctx.unit slot _ _ s hs ⟨found, hl⟩

theorem tells_link (ctx : BuildContext) (hm : ctx.metamodel = c.metamodel)
    (hs : s.Conforms c) {type : ObjectType}
    (ht : s.graph.type? object = some (.object type))
    (feature : Spanned String) (path : Spanned (List String)) :
    Tells c (link ctx object type feature path) s := by
  unfold link
  cases type.reference? feature.value with
  | some reference =>
    constructor
    · intro f t h
      cases h
    · intro r t h
      cases h
      exact .refl c _
  | none =>
    cases type.literalName? feature.value path.value with
    | none => exact .fail id _
    | some name => exact tells_assign hc ctx hm hs ht _ _

end

/-- Elements that nobody holds, each of them once, are attached. -/
theorem tells_attach (ctx : BuildContext) (span : Span)
    (composition : Feature) {type : StructuredType}
    (ht : s.graph.type? object = some type) {children : List ObjectId}
    (hd : children.Nodup) (hf : ∀ child ∈ children, s.graph.Free child) :
    Tells c (attach ctx span composition object children) s := by
  induction children generalizing s type with
  | nil => exact .pure _
  | cons child rest ih =>
    obtain ⟨o, ho, rfl⟩ := Option.map_eq_some_iff.1 ht
    obtain ⟨hn, hd⟩ := List.nodup_cons.1 hd
    have hchild := hf child List.mem_cons_self
    apply Tells.bind
    · exact tells_recover ctx.unit (tells_addChild ht hchild _ _ _)
    · intro _ t h
      have hk := (isolated_recover ctx.unit (isolated_addChild ho hchild
        .attachment span composition)).kept _ t h
      obtain ⟨o', ho', -⟩ := hk _ o ho
      apply ih (Graph.type?_of_object? ho') hd
      intro other hm
      apply hk.free _ (hf other (List.mem_cons_of_mem _ hm))
      rw [List.mem_singleton]
      rintro rfl
      exact hn hm

end SessionWork

/-! ### Units -/

section

open Work (Tells)

variable {c : Catalog} (hc : c.WellFormed) (ctx : BuildContext)
  (hm : ctx.metamodel = c.metamodel)
include hc hm

/-- Building keeps the session as the catalog demands. -/
theorem Session.Conforms.moved {s t : Session} (hs : s.Conforms c)
    (h : s.Moves ctx.metamodel ctx.unit.name t) : t.Conforms c := by
  rw [hm] at h
  exact h.conforms hc hs

mutual

theorem tells_walk (languages : NameSet) (atTop : Bool) (d : Declaration)
    (s : Session) (hs : s.Conforms c) :
    Tells c (d.walk ctx languages atTop) s := by
  obtain ⟨modifiers, typeWord, name, members, span⟩ := d
  rw [Declaration.walk]
  apply Tells.bind
  · unfold SessionWork.declare
    apply Tells.bind (SessionWork.tells_create ctx languages atTop typeWord
      name s)
    rintro ⟨object, type⟩ t h
    have hx := SessionWork.makes_create ctx languages atTop typeWord name s
    have ht := hx.post _ t h
    have hs' := hs.moved hc ctx hm (hx.moves _ t h)
    apply Tells.bind (SessionWork.tells_modifiers ctx hm
      (hs'.graph.hasObjects ht) ht modifiers)
    exact fun _ _ _ => .pure _
  · rintro ⟨object, type⟩ t h
    have hx := SessionWork.makes_declare ctx languages atTop modifiers typeWord
      name s
    apply Tells.bind (tells_memberWalk languages object type members t
      (hs.moved hc ctx hm (hx.moves _ t h)) (hx.post _ t h))
    exact fun _ _ _ => .pure _

theorem tells_memberWalk (languages : NameSet) (object : ObjectId)
    (type : ObjectType) (members : List Member) (s : Session)
    (hs : s.Conforms c) (ht : s.graph.type? object = some (.object type)) :
    Tells c (memberWalk ctx languages object type members) s := by
  cases members with
  | nil =>
    rw [memberWalk]
    exact .pure _
  | cons member rest =>
    cases member with
    | slot name value =>
      rw [memberWalk]
      apply Tells.bind (SessionWork.tells_recover ctx.unit
        (SessionWork.tells_assign hc ctx hm hs ht name value))
      intro _ t h
      have hx := (SessionWork.makes_recover
        (SessionWork.makes_assign ctx _ name value ht)).moves _ t h
      exact tells_memberWalk languages object type rest t
        (hs.moved hc ctx hm hx) (hx.type? ht)
    | link feature path =>
      rw [memberWalk]
      apply Tells.bind (SessionWork.tells_recover ctx.unit
        (SessionWork.tells_link hc ctx hm hs ht feature path))
      intro _ t h
      have hx := (SessionWork.makes_recover
        (SessionWork.makes_link ctx type feature path ht)).moves _ t h
      exact tells_memberWalk languages object type rest t
        (hs.moved hc ctx hm hx) (hx.type? ht)
    | block feature declarations span =>
      rw [memberWalk]
      apply Tells.bind
      · apply Tells.ofExcept
        intro fault h
        unfold ObjectType.compositionNamed at h
        split at h
        · cases h
        · cases h
          exact id
      intro composition s' h
      obtain ⟨hf, rfl⟩ := Work.exec_ofExcept_eq_ok h
      apply Tells.bind (tells_declarationWalk languages declarations s' hs)
      intro children t h
      have hx := (makes_declarationWalk ctx languages declarations s').moves
        _ t h
      obtain ⟨hd, hfree⟩ := (isolated_declarationWalk ctx languages
        declarations s').post _ t h
      have ht' := hx.type? ht
      apply Tells.bind (SessionWork.tells_attach ctx feature.span _ ht' hd
        fun child hmem => (hfree child hmem).2)
      intro _ u h'
      have hx' := (SessionWork.makes_attach ctx feature.span
        (ObjectType.composition?_of_compositionNamed hf) children ht').moves
        _ u h'
      exact tells_memberWalk languages object type rest u
        ((hs.moved hc ctx hm hx).moved hc ctx hm hx') (hx'.type? ht')

theorem tells_declarationWalk (languages : NameSet)
    (declarations : List Declaration) (s : Session) (hs : s.Conforms c) :
    Tells c (declarationWalk ctx languages declarations) s := by
  cases declarations with
  | nil =>
    rw [declarationWalk]
    exact .pure _
  | cons d rest =>
    rw [declarationWalk]
    apply Tells.bind (tells_walk languages false d s hs)
    intro object t h
    have hx := (makes_walk ctx languages false d s).moves _ t h
    apply Tells.bind (tells_declarationWalk languages rest t
      (hs.moved hc ctx hm hx))
    exact fun _ _ _ => .pure _

end

theorem Walk.told_items (items : List Item) (w : Walk)
    (hs : w.toSession.Conforms c) :
    Sink.Told c w.sink (w.items ctx items).sink := by
  induction items generalizing w with
  | nil => exact .refl c _
  | cons item rest ih =>
    cases item with
    | language name =>
      have hx := w.moves_declareLanguage ctx name
      have hl : Sink.Told c w.sink (w.declareLanguage ctx name).sink := by
        unfold declareLanguage
        split
        · exact .refl c _
        · split
          · exact SessionWork.told_reportFault ctx.unit w.toSession id
          · exact .refl c _
      exact hl.trans (ih _ (hs.moved hc ctx hm hx))
    | importUnit name =>
      exact ih { w with imports := w.imports.insert name.value } hs
    | declaration d =>
      have hd := tells_walk hc ctx hm w.languages true d w.toSession hs
      have hx := (makes_walk ctx w.languages true d w.toSession).moves
      rw [Walk.items]
      rcases hw : (d.walk ctx w.languages true).exec w.toSession
        with ⟨f | object, s⟩
      · exact (hd.told _ _ hw).trans
          (SessionWork.told_reportFault ctx.unit s (hd.thrown f s hw))
      · have hr := ih (({ w with toSession := s } : Walk).collect ctx object)
          (by rw [toSession_collect]; exact hs.moved hc ctx hm (hx _ _ hw))
        rw [toSession_collect] at hr
        exact (hd.told _ _ hw).trans hr

omit hc hm in
theorem category_of_ofSource {text : String} {diagnostics : List Diagnostic}
    (h : SourceTree.ofSource text = .error diagnostics) :
    ∀ d ∈ diagnostics, d.category = .syntaxError := by
  unfold SourceTree.ofSource at h
  split at h
  · cases h
    intro d hd
    obtain ⟨e, -, rfl⟩ := List.mem_map.1 hd
    rfl
  · split at h
    · cases h
      intro d hd
      rw [List.mem_singleton.1 hd]
      rfl
    · cases h

omit hc hm in
theorem Session.mem_problems_foldl_reportIn {unit : SourceUnit}
    {diagnostics : List Diagnostic} {s : Session} {source : String}
    {p : Problem} (h : p ∈ (diagnostics.foldl (·.reportIn unit ·)
      s).sink.problems source) :
    p ∈ s.sink.problems source ∨ p.diagnostic ∈ diagnostics := by
  induction diagnostics generalizing s with
  | nil => exact .inl h
  | cons d rest ih =>
    rcases ih h with h | h
    · simp only [reportIn, report, Sink.problems_report] at h
      split at h
      · rcases List.mem_append.1 h with h | h
        · exact .inl h
        · rw [List.mem_singleton.1 h, Problem.diagnostic_locate]
          exact .inr List.mem_cons_self
      · exact .inl h
    · exact .inr (List.mem_cons_of_mem d h)

/-- What is told of a unit is that its text has not the right form, or a fault
that units can have. -/
theorem Session.told_walkUnit {s : Session} (hs : s.Conforms c)
    {source : String} {p : Problem}
    (hp : p ∈ (s.walkUnit ctx).2.sink.problems source) :
    p ∈ s.sink.problems source ∨ p.diagnostic.category = .syntaxError ∨
      p.Arises c := by
  unfold walkUnit at hp
  cases ht : SourceTree.ofSource ctx.unit.text with
  | error diagnostics =>
    rw [ht] at hp
    rcases mem_problems_foldl_reportIn hp with hp | hp
    · exact .inl hp
    · exact .inr (.inl (category_of_ofSource ht _ hp))
  | ok tree =>
    rw [ht] at hp
    have h := Walk.told_items hc ctx hm tree.items ⟨s, .empty, .empty, []⟩ hs
    exact (h source p hp).imp_right .inr

end

end ModelText
