import ModelText.Proofs.Construction.Fatal
import ModelText.Proofs.Tree.Displaced

/-!
# Sessions that differ in places

Places in the text have no influence on what is built. They go into the
problems that are told and into the links that are put aside, and nothing reads
them there while units are built. Links of different objects have nothing to do
with each other either, so sessions are compared by the links of each object.

`Work.Alike` compares two pieces of work that are done on alike sessions: if the
first one succeeds, the second one does, with the same result and on alike
sessions again. Faults can be left out of the comparison.
-/

namespace ModelText

/-! ### Sessions -/

/-- A diagnostic without its places. -/
def Diagnostic.unplaced (d : Diagnostic) : Diagnostic :=
  { d with labels := d.labels.map fun label => { label with span := default } }

/-- A problem without its places. -/
def Problem.unplaced (p : Problem) : Problem :=
  ⟨p.source, 0, 0, p.diagnostic.unplaced⟩

/-- A link without its places. -/
def LinkRequest.unplaced (r : LinkRequest) : LinkRequest :=
  { r with position := default, span := default }

/-- The links of an object in order, without their places. -/
def LinkRequest.linksOf (requests : List LinkRequest) (id : ObjectId) :
    List LinkRequest :=
  (requests.filter (·.scope = id)).map (·.unplaced)

theorem LinkRequest.linksOf_append (requests others : List LinkRequest)
    (id : ObjectId) :
    linksOf (requests ++ others) id =
      linksOf requests id ++ linksOf others id := by
  simp [linksOf]

theorem LinkRequest.linksOf_of_ne {requests : List LinkRequest} {id : ObjectId}
    (h : ∀ r ∈ requests, r.scope ≠ id) : linksOf requests id = [] := by
  unfold linksOf
  rw [List.filter_eq_nil_iff.2 fun r hr => by simpa using h r hr]
  rfl

/-- Every object counts. -/
abbrev everywhere (_ : ObjectId) : Prop := True

/-- The sessions differ at most in places, in how the links of different
objects are ordered among each other, and in the links of objects out of
consideration. -/
structure Session.Alike (counts : ObjectId → Prop) (s s' : Session) :
    Prop where
  graph : s'.graph = s.graph
  problems : ∀ source, (s'.sink.problems source).map Problem.unplaced =
    (s.sink.problems source).map Problem.unplaced
  links : ∀ id, counts id →
    LinkRequest.linksOf s'.requests id = LinkRequest.linksOf s.requests id

namespace Session.Alike

variable {counts : ObjectId → Prop} {s s' s'' : Session}

theorem refl (counts : ObjectId → Prop) (s : Session) : s.Alike counts s :=
  ⟨rfl, fun _ => rfl, fun _ _ => rfl⟩

theorem symm (h : s.Alike counts s') : s'.Alike counts s where
  graph := h.graph.symm
  problems source := (h.problems source).symm
  links id hi := (h.links id hi).symm

theorem trans (h : s.Alike counts s') (h' : s'.Alike counts s'') :
    s.Alike counts s'' where
  graph := h'.graph.trans h.graph
  problems source := (h'.problems source).trans (h.problems source)
  links id hi := (h'.links id hi).trans (h.links id hi)

theorem somewhere (h : s.Alike everywhere s') : s.Alike counts s' where
  graph := h.graph
  problems := h.problems
  links id _ := h.links id trivial

theorem report (h : s.Alike counts s') {p p' : Problem}
    (hp : p'.unplaced = p.unplaced) :
    (s.report p).Alike counts (s'.report p') where
  graph := h.graph
  problems source := by
    have hs : p'.unplaced.source = p.unplaced.source :=
      congrArg Problem.source hp
    change p'.source = p.source at hs
    unfold Session.report
    dsimp only
    rw [Sink.problems_report, Sink.problems_report, hs]
    split
    · rw [List.map_append, List.map_append, h.problems, List.map_singleton,
        List.map_singleton, hp]
    · exact h.problems source
  links := h.links

theorem reportFault (h : s.Alike counts s') {unit unit' : SourceUnit}
    (hn : unit'.name = unit.name) {f f' : Spanned Fault}
    (hf : f'.value = f.value) :
    (s.reportFault unit f).Alike counts (s'.reportFault unit' f') := by
  refine h.report ?_
  unfold Problem.unplaced
  rw [Problem.source_locate, Problem.source_locate, Problem.diagnostic_locate,
    Problem.diagnostic_locate, hn]
  unfold Fault.diagnostic
  rw [hf]
  rfl

end Session.Alike

/-! ### Work -/

/-- Done on alike sessions, the second piece of work does what the first one
does. If `faults` does not hold, this is said only of work that succeeds. -/
structure Work.Alike {α : Type} (counts : ObjectId → Prop) (faults : Prop)
    (work work' : SessionWork α) (s : Session) : Prop where
  ok : ∀ {s' a t}, s.Alike counts s' → work.exec s = (.ok a, t) →
    ∃ t', work'.exec s' = (.ok a, t') ∧ t.Alike counts t'
  error : faults → ∀ {s' f t}, s.Alike counts s' →
    work.exec s = (.error f, t) →
    ∃ f' t', work'.exec s' = (.error f', t') ∧ f'.value = f.value ∧
      t.Alike counts t'

namespace Work

variable {α β γ : Type} {counts : ObjectId → Prop} {faults : Prop}
  {work work' work'' : SessionWork α} {s : Session}

theorem Alike.pure (a : α) : Alike counts faults (pure a) (pure a) s where
  ok hs h := by
    cases h
    exact ⟨_, rfl, hs⟩
  error _ _ _ _ hs h := by cases h

theorem Alike.fail (fault : Fault) (span span' : Span) :
    Alike counts faults (fail fault span : SessionWork α) (fail fault span')
      s where
  ok hs h := by cases h
  error _ _ _ _ hs h := by
    cases h
    exact ⟨_, _, rfl, rfl, hs⟩

theorem Alike.ofExcept (span span' : Span) (result : Except Fault α) :
    Alike counts faults (ofExcept span result) (ofExcept span' result) s := by
  cases result with
  | error fault => exact .fail fault span span'
  | ok a => exact .pure a

theorem Alike.bind {next next' : α → SessionWork β}
    (hw : Alike counts faults work work' s)
    (hn : ∀ a t, work.exec s = (.ok a, t) →
      Alike counts faults (next a) (next' a) t) :
    Alike counts faults (work >>= next) (work' >>= next') s where
  ok hs h := by
    obtain ⟨a, u, ha, h⟩ := exec_bind_eq_ok h
    obtain ⟨u', ha', hu⟩ := hw.ok hs ha
    rw [exec_bind_of_ok ha']
    exact (hn a u ha).ok hu h
  error hf _ _ _ hs h := by
    rcases exec_bind_eq h with ⟨f, ha, hr⟩ | ⟨a, u, ha, h⟩
    · cases hr
      obtain ⟨f', u', ha', hv, hu⟩ := hw.error hf hs ha
      exact ⟨f', u', exec_bind_of_error ha' _, hv, hu⟩
    · obtain ⟨u', ha', hu⟩ := hw.ok hs ha
      rw [exec_bind_of_ok ha']
      exact (hn a u ha).error hf hu h

theorem Alike.forM {f : β → SessionWork Unit} {f' : γ → SessionWork Unit}
    (g : β → γ) (hf : ∀ b s, Alike counts faults (f b) (f' (g b)) s)
    (list : List β) (s : Session) :
    Alike counts faults (list.forM f) ((list.map g).forM f') s := by
  induction list generalizing s with
  | nil => exact .pure _
  | cons b rest ih => exact .bind (hf b s) fun _ t _ => ih t

theorem Alike.trans (h : Alike counts faults work work' s)
    (h' : Alike counts faults work' work'' s) :
    Alike counts faults work work'' s where
  ok hs hw := by
    obtain ⟨t', hw', ht⟩ := h.ok (.refl counts s) hw
    obtain ⟨t'', hw'', ht'⟩ := h'.ok hs hw'
    exact ⟨t'', hw'', ht.trans ht'⟩
  error hf _ _ _ hs hw := by
    obtain ⟨f', t', hw', hv, ht⟩ := h.error hf (.refl counts s) hw
    obtain ⟨f'', t'', hw'', hv', ht'⟩ := h'.error hf hs hw'
    exact ⟨f'', t'', hw'', hv'.trans hv, ht.trans ht'⟩

/-- Where faults are compared as well, each piece of work does what the other
one does. -/
theorem Alike.symm (h : ∀ s, Alike counts True work work' s) (s : Session) :
    Alike counts faults work' work s where
  ok := by
    intro s' a t hs hw
    rcases hx : work.exec s' with ⟨f | b, u⟩
    · obtain ⟨f', u', hw', -, -⟩ := (h s').error trivial hs.symm hx
      rw [hw] at hw'
      cases hw'
    · obtain ⟨u', hw', hu⟩ := (h s').ok hs.symm hx
      rw [hw] at hw'
      cases hw'
      exact ⟨u, rfl, hu.symm⟩
  error := by
    intro _ s' f t hs hw
    rcases hx : work.exec s' with ⟨g | b, u⟩
    · obtain ⟨f', u', hw', hv, hu⟩ := (h s').error trivial hs.symm hx
      rw [hw] at hw'
      cases hw'
      exact ⟨g, u, rfl, hv.symm, hu.symm⟩
    · obtain ⟨u', hw', -⟩ := (h s').ok hs.symm hx
      rw [hw] at hw'
      cases hw'

theorem Alike.mono (h : Alike counts True work work' s) :
    Alike counts faults work work' s :=
  ⟨h.ok, fun _ => h.error trivial⟩

/-- Work that some other work is like does the same again on an alike session.
-/
theorem Alike.self (h : ∀ s, Alike counts True work work' s) (s : Session) :
    Alike counts faults work work s :=
  Alike.mono ((h s).trans (.symm h s))

end Work

/-- The units have the same name, and all else is the same but for the text. -/
structure BuildContext.Alike (ctx ctx' : BuildContext) : Prop where
  metamodel : ctx'.metamodel = ctx.metamodel
  fatalScope : ctx'.fatalScope = ctx.fatalScope
  name : ctx'.unit.name = ctx.unit.name

namespace SessionWork

open Work (Alike)

variable {counts : ObjectId → Prop} {faults : Prop} {s : Session}
  {unit unit' : SourceUnit} {ctx ctx' : BuildContext}

theorem alike_report (hn : unit'.name = unit.name) {f f' : Spanned Fault}
    (hf : f'.value = f.value) :
    Alike counts faults (report unit f) (report unit' f') s where
  ok hs h := by
    cases h
    exact ⟨_, rfl, hs.reportFault hn hf⟩
  error _ _ _ _ hs h := by cases h

/-- A fault that is reported has to be the same, so faults count below. -/
theorem alike_recover (hn : unit'.name = unit.name)
    {work work' : SessionWork Unit} (h : Alike counts True work work' s) :
    Alike counts faults (recover unit work) (recover unit' work') s where
  ok := by
    rintro s' ⟨⟩ t hs hr
    rcases exec_recover_eq hr with hw | ⟨f, u, hw, hf, -, rfl⟩
    · obtain ⟨t', hw', ht⟩ := h.ok hs hw
      exact ⟨t', Work.exec_recoverBy_of_ok hw', ht⟩
    · obtain ⟨f', u', hw', hv, hu⟩ := h.error trivial hs hw
      rw [← hv] at hf
      exact ⟨_, Work.exec_recoverBy_of_error hw' hf, hu.reportFault hn hv⟩
  error := by
    intro _ s' f t hs hr
    rcases exec_recover_eq hr with hw | ⟨g, u, -, -, he, -⟩
    · obtain ⟨f', t', hw', hv, ht⟩ := h.error trivial hs hw
      have hf := onlyFatal_recover unit work s f t hr
      rw [← hv] at hf
      exact ⟨f', t', Work.exec_recoverBy_of_fatal hw' hf, hv, ht⟩
    · cases he

theorem alike_instantiate (type : StructuredType) (isRoot : Bool) :
    Alike counts faults (instantiate type isRoot) (instantiate type isRoot)
      s where
  ok := by
    rintro ⟨graph, sink, requests⟩ a t hs ⟨⟩
    obtain rfl : graph = s.graph := hs.graph
    exact ⟨_, rfl, rfl, hs.problems, hs.links⟩
  error _ _ _ _ hs h := by cases h

theorem alike_change (attempt : Attempt) (span span' : Span)
    (f : Graph → Except Graph.Error Graph) :
    Alike counts faults (change attempt span f) (change attempt span' f) s where
  ok := by
    intro s' a t hs h
    cases hg : f s.graph with
    | error e =>
      rw [exec_change_of_error hg] at h
      cases h
    | ok g =>
      rw [exec_change_of_ok hg] at h
      cases h
      rw [← hs.graph] at hg
      exact ⟨_, exec_change_of_ok hg, rfl, hs.problems, hs.links⟩
  error := by
    intro _ s' fault t hs h
    cases hg : f s.graph with
    | error e =>
      rw [exec_change_of_error hg] at h
      cases h
      rw [← hs.graph] at hg
      exact ⟨_, _, exec_change_of_error hg, rfl, hs⟩
    | ok g =>
      rw [exec_change_of_ok hg] at h
      cases h

theorem alike_deferLink (hc : ctx.Alike ctx') (scope : ObjectId)
    (reference : Feature) (path : List String) (span span' : Span) :
    Alike counts faults (deferLink ctx scope reference path span)
      (deferLink ctx' scope reference path span') s where
  ok hs h := by
    cases h
    refine ⟨_, rfl, hs.graph, hs.problems, fun id hi => ?_⟩
    dsimp only
    rw [LinkRequest.linksOf_append, LinkRequest.linksOf_append, hs.links id hi]
    refine congrArg _ ?_
    unfold LinkRequest.linksOf
    by_cases hid : scope = id
    · simp [hid, LinkRequest.unplaced, hc.name]
    · simp [hid]
  error _ _ _ _ hs h := by cases h

theorem alike_nameObject (object : ObjectId) (name : Option (Spanned String)) :
    Alike counts faults (nameObject object name)
      (nameObject object (name.map (·.unplaced))) s := by
  cases name with
  | none => exact .pure _
  | some name =>
    unfold nameObject
    exact alike_change _ _ _ _

theorem alike_create (hc : ctx.Alike ctx') (languages : NameSet) (atTop : Bool)
    (typeWord : Spanned String) (name : Option (Spanned String)) :
    Alike counts faults (create ctx languages atTop typeWord name)
      (create ctx' languages atTop typeWord.unplaced
        (name.map (·.unplaced))) s := by
  unfold create
  rw [hc.metamodel]
  refine .bind ?_ fun _ t _ => .bind (.ofExcept _ _ _) fun type t _ =>
    .bind ?_ fun _ t _ => .bind (alike_instantiate _ _) fun object t _ =>
      .bind (alike_nameObject object name) fun _ t _ => .pure _
  · unfold needLanguage
    split
    · exact .fail _ _ _
    · exact .pure _
  · unfold remarkPlace
    split
    · exact alike_report hc.name rfl
    · exact .pure _

theorem alike_declare (hc : ctx.Alike ctx') (languages : NameSet)
    (atTop : Bool) (modifiers : List (Spanned String))
    (typeWord : Spanned String) (name : Option (Spanned String)) :
    Alike counts faults (declare ctx languages atTop modifiers typeWord name)
      (declare ctx' languages atTop (modifiers.map (·.unplaced))
        typeWord.unplaced (name.map (·.unplaced))) s := by
  unfold declare
  refine .bind (alike_create hc _ _ _ _) fun ⟨object, type⟩ t _ =>
    .bind (.forM _ (fun modifier t => ?_) modifiers t) fun _ t _ => .pure _
  unfold applyModifier
  rw [hc.metamodel]
  exact .bind (.ofExcept _ _ _) fun _ t _ => alike_change _ _ _ _

theorem alike_assignBy (object : ObjectId) (type : StructuredType)
    (name : Spanned String) {value value' : Slot → SessionWork Value}
    (hv : ∀ slot, Alike counts faults (value slot) (value' slot) s) :
    Alike counts faults (assignBy object type name value)
      (assignBy object type name.unplaced value') s := by
  unfold assignBy
  rw [show name.unplaced.value = name.value from rfl]
  cases type.slot? name.value with
  | none => exact .fail _ _ _
  | some slot => exact .bind (hv slot) fun _ t _ => alike_change _ _ _ _

theorem value_unplaced (slot : Slot) (type : TypeInfo) (literal : Literal) :
    type.value slot literal.unplaced = type.value slot literal := by
  cases literal with
  | record fields =>
    rw [Literal.unplaced]
    cases type with
    | primitive type =>
      obtain ⟨name, kind⟩ := type
      cases kind <;> rfl
    | _ => rfl
  | _ => rw [Literal.unplaced]; exact nofun

mutual

theorem alike_value (m : Metamodel) (hn : unit'.name = unit.name)
    (slot : Slot) (span span' : Span) (literal : Literal) (s : Session) :
    Alike counts True (value m unit slot span literal)
      (value m unit' slot span' literal.unplaced) s := by
  cases literal with
  | record fields =>
    rw [Literal.unplaced, value, value]
    cases m.lookup? slot.type with
    | none => exact .fail _ _ _
    | some type =>
      cases type with
      | record type =>
        exact .bind (alike_instantiate _ _) fun object t _ =>
          .bind (alike_assignFields m hn object _ fields t) fun _ t _ => .pure _
      | _ =>
        dsimp only
        rw [← value_unplaced, Literal.unplaced]
        exact .ofExcept _ _ _
  | _ =>
    rw [Literal.unplaced, value, value]
    · cases m.lookup? slot.type with
      | none => exact .fail _ _ _
      | some type => cases type <;> exact .ofExcept _ _ _
    · exact nofun

theorem alike_assignFields (m : Metamodel) (hn : unit'.name = unit.name)
    (object : ObjectId) (type : StructuredType) (fields : List Field)
    (s : Session) :
    Alike counts True (assignFields m unit object type fields)
      (assignFields m unit' object type (unplacedFields fields)) s := by
  cases fields with
  | nil =>
    rw [unplacedFields, assignFields, assignFields]
    exact .pure _
  | cons field rest =>
    obtain ⟨name, literal, span⟩ := field
    rw [unplacedFields, assignFields, assignFields]
    exact .bind (alike_recover hn (alike_assignBy _ _ _ fun slot =>
      alike_value m hn slot span _ literal s)) fun _ t _ =>
        alike_assignFields m hn object type rest t

end

theorem alike_assign (hc : ctx.Alike ctx') (object : ObjectId)
    (type : StructuredType) (name : Spanned String)
    (literal : Spanned Literal) (span : Span) :
    Alike counts True
      (assign ctx.metamodel ctx.unit object type name literal)
      (assign ctx'.metamodel ctx'.unit object type name.unplaced
        ⟨literal.value.unplaced, span⟩) s := by
  rw [hc.metamodel]
  exact alike_assignBy _ _ _ fun slot => alike_value _ hc.name _ _ _ _ s

theorem alike_link (hc : ctx.Alike ctx') (object : ObjectId)
    (type : ObjectType) (feature : Spanned String)
    (path : Spanned (List String)) :
    Alike counts True (link ctx object type feature path)
      (link ctx' object type feature.unplaced path.unplaced) s := by
  unfold link
  rw [show feature.unplaced.value = feature.value from rfl,
    show path.unplaced.value = path.value from rfl]
  cases type.reference? feature.value with
  | some reference => exact alike_deferLink hc _ _ _ _ _
  | none =>
    cases type.literalName? feature.value path.value with
    | some name =>
      have ha : Alike counts True _ _ s := alike_assign hc object
        (.object type) feature ⟨.identifier name, path.span⟩ default
      rw [Literal.unplaced] at ha
      · exact ha
      · exact nofun
    | none => exact .fail _ _ _

theorem alike_attach (hc : ctx.Alike ctx') (span span' : Span)
    (composition : Feature) (parent : ObjectId) (children : List ObjectId) :
    Alike counts True (attach ctx span composition parent children)
      (attach ctx' span' composition parent children) s := by
  have ha : Alike counts True (attach ctx span composition parent children)
      (attach ctx' span' composition parent (children.map id)) s := by
    unfold attach
    refine .forM id (fun child t => ?_) children s
    exact alike_recover hc.name (alike_change _ _ _ _)
  rwa [List.map_id] at ha

end SessionWork

/-! ### Elements -/

section

open Work (Alike)

variable {counts : ObjectId → Prop} {ctx ctx' : BuildContext}

mutual

/-- The places in a declaration do not matter. -/
theorem alike_walk (hc : ctx.Alike ctx') (languages : NameSet) (atTop : Bool)
    (d : Declaration) (s : Session) :
    Alike counts True (d.walk ctx languages atTop)
      (d.unplaced.walk ctx' languages atTop) s := by
  obtain ⟨modifiers, typeWord, name, members, span⟩ := d
  rw [Declaration.unplaced, Declaration.walk, Declaration.walk]
  refine .bind (SessionWork.alike_declare hc _ _ _ _ _)
    fun ⟨object, type⟩ t _ => ?_
  exact .bind (alike_memberWalk hc languages object type members t)
    fun _ t _ => .pure _

theorem alike_memberWalk (hc : ctx.Alike ctx') (languages : NameSet)
    (object : ObjectId) (type : ObjectType) (members : List Member)
    (s : Session) :
    Alike counts True (memberWalk ctx languages object type members)
      (memberWalk ctx' languages object type (unplacedMembers members)) s := by
  cases members with
  | nil =>
    rw [unplacedMembers, memberWalk, memberWalk]
    exact .pure _
  | cons member rest =>
    have hr := fun t => alike_memberWalk hc languages object type rest t
    cases member with
    | slot name value =>
      rw [unplacedMembers, memberWalk, memberWalk]
      exact .bind (SessionWork.alike_recover hc.name
        (SessionWork.alike_assign hc _ _ _ _ _)) fun _ t _ => hr t
    | link feature path =>
      rw [unplacedMembers, memberWalk, memberWalk]
      exact .bind (SessionWork.alike_recover hc.name
        (SessionWork.alike_link hc _ _ _ _)) fun _ t _ => hr t
    | block feature declarations span =>
      rw [unplacedMembers, memberWalk, memberWalk]
      exact .bind (.ofExcept _ _ _) fun composition t _ =>
        .bind (alike_declarationWalk hc languages declarations t)
          fun children t _ =>
            .bind (SessionWork.alike_attach hc _ _ _ _ _) fun _ t _ => hr t

theorem alike_declarationWalk (hc : ctx.Alike ctx') (languages : NameSet)
    (declarations : List Declaration) (s : Session) :
    Alike counts True (declarationWalk ctx languages declarations)
      (declarationWalk ctx' languages (unplacedDeclarations declarations))
      s := by
  cases declarations with
  | nil =>
    rw [unplacedDeclarations, declarationWalk, declarationWalk]
    exact .pure _
  | cons d rest =>
    rw [unplacedDeclarations, declarationWalk, declarationWalk]
    exact .bind (alike_walk hc languages false d s) fun object t _ =>
      .bind (alike_declarationWalk hc languages rest t) fun others t _ =>
        .pure _

end

/-- Declarations that differ in places only are built alike. -/
theorem alike_walk_of_unplaced (hc : ctx.Alike ctx') {d d' : Declaration}
    (h : d'.unplaced = d.unplaced) (languages : NameSet) (atTop : Bool)
    (s : Session) :
    Alike counts True (d.walk ctx languages atTop)
      (d'.walk ctx' languages atTop) s := by
  have hc' : ctx'.Alike ctx' := ⟨rfl, rfl, rfl⟩
  have hd : Alike counts True _ _ s := alike_walk hc languages atTop d s
  rw [← h] at hd
  exact hd.trans (.symm (alike_walk hc' languages atTop d') s)

end

end ModelText
