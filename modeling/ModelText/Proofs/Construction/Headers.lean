import ModelText.Proofs.Construction.Refinement
import ModelText.Proofs.Graph.Changes

/-!
# What headers create

The languages of a unit are those that its events have declared so far, in their
order: one event adds to them, and every other one leaves them as they are. The
header of an element asks them for the type that its word names. If there is one
of which elements can be made, the header adds one object of this type to the
graph, whatever its modifiers do to the object then; otherwise it ends the unit
and adds nothing.
-/

namespace ModelText

/-! ### What work leaves as it is -/

namespace Work

variable {σ α β γ : Type} {part : σ → γ}

/-- Whatever comes of the work, it leaves a part of the state as it is. -/
def Keeps (part : σ → γ) (work : Work σ α) : Prop :=
  ∀ s, part (work.exec s).2 = part s

theorem Keeps.pure (a : α) : Keeps part (pure a : Work σ α) := fun _ => rfl

theorem Keeps.fail (fault : Fault) (span : Span) :
    Keeps part (fail fault span : Work σ α) := fun _ => rfl

theorem Keeps.ofExcept (span : Span) (result : Except Fault α) :
    Keeps part (ofExcept span result : Work σ α) := by
  cases result with
  | ok a => exact .pure a
  | error fault => exact .fail fault span

theorem Keeps.get : Keeps part (get : Work σ σ) := fun _ => rfl

theorem Keeps.modify {f : σ → σ} (h : ∀ s, part (f s) = part s) :
    Keeps part (modify f : Work σ PUnit) := h

theorem Keeps.bind {work : Work σ α} {next : α → Work σ β}
    (hw : Keeps part work) (hn : ∀ a, Keeps part (next a)) :
    Keeps part (work >>= next) := by
  intro s
  rcases hx : work.exec s with ⟨f | a, t⟩
  · rw [exec_bind_of_error hx, ← hw s, hx]
  · rw [exec_bind_of_ok hx, hn a t, ← hw s, hx]

theorem Keeps.recoverBy {report : Spanned Fault → Work σ Unit}
    {work : Work σ Unit} (hw : Keeps part work)
    (hr : ∀ f, Keeps part (report f)) : Keeps part (recoverBy report work) := by
  intro s
  rcases hx : work.exec s with ⟨f | a, t⟩
  · cases hf : f.value.severity.isFatal with
    | true => rw [exec_recoverBy_of_fatal hx hf, ← hw s, hx]
    | false => rw [exec_recoverBy_of_error hx hf, hr f t, ← hw s, hx]
  · rw [exec_recoverBy_of_ok hx, ← hw s, hx]

theorem Keeps.forM {f : α → Work σ Unit} (hf : ∀ a, Keeps part (f a))
    (list : List α) : Keeps part (list.forM f) := by
  induction list with
  | nil => exact .pure _
  | cons a rest ih => exact .bind (hf a) fun _ => ih

end Work

/-! ### The languages of a unit -/

namespace Build

open Work (Keeps)

/-- The work does not touch the languages of the unit. -/
abbrev KeepsLanguages {α : Type} (build : Build α) : Prop :=
  Keeps (fun c : Construction => c.languages) build

variable {α : Type}

theorem keepsLanguages_session (work : SessionWork α) :
    KeepsLanguages (session work) := fun _ => rfl

theorem keepsLanguages_recover {build : Build Unit} (h : KeepsLanguages build)
    (unit : SourceUnit) : KeepsLanguages (recover unit build) :=
  .recoverBy h fun _ => keepsLanguages_session _

theorem keepsLanguages_push (scope : Scope) : KeepsLanguages (push scope) :=
  .modify fun _ => rfl

theorem keepsLanguages_pop : KeepsLanguages pop := .modify fun _ => rfl

theorem keepsLanguages_popMany (count : Nat) (span : Span) :
    KeepsLanguages (popMany count span) := by
  refine .bind .get fun c => ?_
  dsimp only
  split
  · exact .fail _ _
  · exact .bind (.modify fun _ => rfl) fun _ => .pure _

theorem keepsLanguages_assignBy (name : Spanned String)
    {value : Slot → Build Value} (hv : ∀ slot, KeepsLanguages (value slot)) :
    KeepsLanguages (assignBy name value) := by
  refine .bind .get fun c => ?_
  split
  · exact .fail _ _
  · split
    · exact .fail _ _
    · exact .bind (hv _) fun _ => keepsLanguages_session _

mutual

theorem keepsLanguages_value (m : Metamodel) (unit : SourceUnit) (slot : Slot)
    (span : Span) (literal : Literal) :
    KeepsLanguages (value m unit slot span literal) := by
  cases literal with
  | record fields =>
    rw [value]
    cases m.lookup? slot.type with
    | none => exact .fail _ _
    | some type =>
      cases type with
      | record type =>
        exact .bind (keepsLanguages_session _) fun object =>
          .bind (keepsLanguages_push _) fun _ =>
            .bind (keepsLanguages_assignFields m unit fields) fun _ =>
              .bind keepsLanguages_pop fun _ => .pure _
      | object type => exact .ofExcept _ _
      | enumerated type => exact .ofExcept _ _
      | primitive type => exact .ofExcept _ _
  | _ =>
    rw [value]
    cases m.lookup? slot.type with
    | none => exact .fail _ _
    | some type => cases type <;> exact .ofExcept _ _

theorem keepsLanguages_assignFields (m : Metamodel) (unit : SourceUnit)
    (fields : List Field) : KeepsLanguages (assignFields m unit fields) := by
  cases fields with
  | nil =>
    rw [assignFields]
    exact .pure _
  | cons field fields =>
    obtain ⟨name, literal, span⟩ := field
    rw [assignFields]
    exact .bind (keepsLanguages_recover (keepsLanguages_assignBy name fun slot =>
        keepsLanguages_value m unit slot span literal) unit)
      fun _ => keepsLanguages_assignFields m unit fields

end

theorem keepsLanguages_assign (m : Metamodel) (unit : SourceUnit)
    (name : Spanned String) (literal : Spanned Literal) :
    KeepsLanguages (assign m unit name literal) :=
  keepsLanguages_assignBy name fun _ => keepsLanguages_value _ _ _ _ _

theorem keepsLanguages_start (ctx : BuildContext) (typeWord : Spanned String)
    (name : Option (Spanned String)) :
    KeepsLanguages (start ctx typeWord name) := by
  refine .bind .get fun c => .bind (keepsLanguages_session _) fun created =>
    .bind (.modify fun _ => rfl) fun _ => .bind (keepsLanguages_push _)
      fun _ => .bind .get fun c => ?_
  split
  · exact .pure _
  · exact .bind (.modify fun _ => rfl) fun _ => keepsLanguages_session _

theorem keepsLanguages_stop (ctx : BuildContext) (span : Span) :
    KeepsLanguages (stop ctx span) := by
  refine .bind .get fun c => ?_
  split
  · exact .fail _ _
  · exact .modify fun _ => rfl
  · exact .pure _

theorem keepsLanguages_element (feature : Spanned String) :
    KeepsLanguages (element feature) := by
  refine .bind .get fun c => ?_
  split
  · exact .fail _ _
  · exact .pure _
  · exact .fail _ _

theorem keepsLanguages_composition (feature : Spanned String) :
    KeepsLanguages (composition feature) :=
  .bind (keepsLanguages_element feature) fun _ =>
    .bind (.ofExcept _ _) fun _ => .pure _

theorem keepsLanguages_link (ctx : BuildContext) (feature : Spanned String)
    (path : Spanned (List String)) (span : Span) :
    KeepsLanguages (link ctx feature path span) := by
  refine .bind (keepsLanguages_element feature) fun found => ?_
  dsimp only
  split
  · exact keepsLanguages_session _
  · split
    · exact keepsLanguages_assign _ _ _ _
    · exact .fail _ _

/-- An event that declares no language leaves the languages as they are. -/
theorem keepsLanguages_step (ctx : BuildContext) {event : Spanned Event}
    (h : ∀ name, event.value ≠ .language name) :
    KeepsLanguages (step ctx event) := by
  obtain ⟨event, span⟩ := event
  cases event with
  | language name => exact absurd rfl (h name)
  | importUnit name => exact .modify fun _ => rfl
  | modifier tag => exact .modify fun _ => rfl
  | start typeWord name => exact keepsLanguages_start ctx typeWord name
  | stop => exact keepsLanguages_stop ctx span
  | slot name value => exact keepsLanguages_assign _ _ _ _
  | blockStart feature =>
    exact .bind (keepsLanguages_composition feature) fun _ => .pure _
  | blockEnd feature count =>
    exact .bind (keepsLanguages_popMany count span) fun _ =>
      .bind (keepsLanguages_composition feature) fun _ =>
        keepsLanguages_session _
  | link feature path => exact keepsLanguages_link ctx feature path span

end Build

/-- The language that an event declares. -/
def Event.language? : Event → Option String
  | .language name => some name
  | _ => none

/-- The languages that events declare, in their order. -/
def Events.languages (events : Events) : List String :=
  events.filterMap (·.value.language?)

theorem Walk.languages_declareLanguage (w : Walk) (ctx : BuildContext)
    (name : Spanned String) :
    (w.declareLanguage ctx name).languages = w.languages.insert name.value := by
  unfold declareLanguage
  split
  · next h => exact (NameSet.insert_of_mem (NameSet.contains_eq_true.1 h)).symm
  · rfl

namespace Build

variable {ctx : BuildContext} {c d : Construction}

/-- One event adds the language that it declares. -/
theorem languages_step (ctx : BuildContext) (event : Spanned Event)
    (c : Construction) :
    ((recover ctx.unit (step ctx event)).exec c).2.languages =
      c.languages.insertAll event.value.language?.toList := by
  by_cases h : ∃ name, event.value = .language name
  · obtain ⟨name, hv⟩ := h
    obtain ⟨_, span⟩ := event
    subst hv
    rw [exec_language ctx ⟨name, span⟩
      (w := ⟨c.toSession, c.languages, c.imports, c.roots⟩) rfl rfl]
    exact Walk.languages_declareLanguage _ ctx ⟨name, span⟩
  · have hv : event.value.language? = none := by
      cases he : event.value with
      | language name => exact absurd ⟨name, he⟩ h
      | _ => rfl
    rw [hv]
    exact keepsLanguages_recover (keepsLanguages_step ctx (not_exists.1 h)) _ c

/-- Behind events, a unit has the languages that they declare. -/
theorem languages_steps {events : Events}
    (h : (steps ctx events).exec c = (.ok (), d)) :
    d.languages = c.languages.insertAll events.languages := by
  induction events generalizing c with
  | nil =>
    cases h
    rfl
  | cons event rest ih =>
    obtain ⟨⟨⟩, e, he, hrest⟩ := Work.exec_bind_eq_ok h
    have hstep := languages_step ctx event c
    rw [he] at hstep
    rw [ih hrest, hstep, Events.languages, Events.languages,
      List.filterMap_cons]
    cases event.value.language? <;> rfl

end Build

/-! ### The types of objects -/

/-- The types of the objects, in the order of creation. -/
def Graph.types (g : Graph) : List StructuredType :=
  g.objects.toList.map (·.type)

namespace Graph

variable {g h : Graph} {id : ObjectId}

theorem types_instantiate (g : Graph) (type : StructuredType) (isRoot : Bool) :
    (g.instantiate type isRoot).2.types = g.types ++ [type] := by
  simp [types, instantiate, Object.new]

theorem types_update {f : Object → Object} (hf : ∀ o, (f o).type = o.type) :
    (g.update id f).types = g.types := by
  simp only [types, update, Array.toList_modify]
  refine List.ext_getElem? fun i => ?_
  rw [List.getElem?_map, List.getElem?_map, List.getElem?_modify]
  cases g.objects.toList[i]? with
  | none => rfl
  | some o => by_cases hi : id.index = i <;> simp [hi, hf]

theorem types_setName {name : String} (hm : g.setName id name = .ok h) :
    h.types = g.types := by
  rw [setName_eq_ok hm]
  exact types_update fun _ => rfl

theorem types_setValue {slot : Slot} {value : Value}
    (hm : g.setValue slot id value = .ok h) : h.types = g.types := by
  rw [setValue_eq_ok hm]
  exact types_update fun _ => rfl

end Graph

namespace SessionWork

open Work (Keeps)

variable {ctx : BuildContext} {s : Session} {languages : NameSet} {atTop : Bool}
  {typeWord : Spanned String} {name : Option (Spanned String)}

/-- The work creates no object. -/
abbrev KeepsTypes {α : Type} (work : SessionWork α) : Prop :=
  Keeps (fun s : Session => s.graph.types) work

theorem keepsTypes_change {attempt : Attempt} {span : Span}
    {f : Graph → Except Graph.Error Graph}
    (hf : ∀ g h, f g = .ok h → h.types = g.types) :
    KeepsTypes (change attempt span f) := by
  intro s
  cases h : f s.graph with
  | error e => rw [exec_change_of_error h]
  | ok g =>
    rw [exec_change_of_ok h]
    exact hf _ g h

theorem keepsTypes_applyModifier (object : ObjectId) (type : StructuredType)
    (modifier : Spanned String) :
    KeepsTypes (applyModifier ctx object type modifier) :=
  .bind (.ofExcept _ _) fun _ =>
    keepsTypes_change fun _ _ => Graph.types_setValue

/-- Elements can be made where a language is declared, or within others. -/
theorem exec_needLanguage (h : (atTop && languages.isEmpty) = false)
    (span : Span) (s : Session) :
    (needLanguage languages atTop span).exec s = (.ok (), s) := by
  rw [needLanguage, h]
  rfl

/-- A remark on the place of an element changes no graph. -/
theorem exists_remarkPlace (unit : SourceUnit) (type : ObjectType)
    (atTop : Bool) (typeName : String) (span : Span) (s : Session) :
    ∃ t, (remarkPlace unit type atTop typeName span).exec s = (.ok (), t) ∧
      t.graph = s.graph := by
  unfold remarkPlace
  split
  · exact ⟨_, rfl, rfl⟩
  · exact ⟨s, rfl, rfl⟩

/-- An object that is there can be named. -/
theorem exists_nameObject (name : Option (Spanned String))
    {object : ObjectId} {o : Object} (ho : s.graph.object? object = some o) :
    ∃ t, (nameObject object name).exec s = (.ok (), t) ∧
      t.graph.types = s.graph.types := by
  cases name with
  | none => exact ⟨s, rfl, rfl⟩
  | some name =>
    have hg : s.graph.setName object name.value = .ok (s.graph.update object
        fun o => { o with name := some name.value }) := by
      rw [Graph.setName_eq, ho]
    rw [nameObject]
    exact ⟨_, exec_change_of_ok (f := (·.setName object name.value)) hg,
      Graph.types_setName hg⟩

/-- A type of which elements can be made: one object of it is created. -/
theorem exists_create (name : Option (Spanned String)) (s : Session)
    {type : ObjectType} (hl : (atTop && languages.isEmpty) = false)
    (ht : ctx.metamodel.elementType languages
      (Text.capitalized typeWord.value) = .ok type) :
    ∃ object t, (create ctx languages atTop typeWord name).exec s =
        (.ok (object, type), t) ∧
      t.graph.types = s.graph.types ++ [.object type] := by
  obtain ⟨u, hu, hgraph⟩ := exists_remarkPlace ctx.unit type atTop
    (Text.capitalized typeWord.value) typeWord.span s
  have hnew : (u.graph.instantiate (.object type) type.isRoot).2.object?
      (u.graph.instantiate (.object type) type.isRoot).1 =
        some (.new (.object type)) := by
    rw [Graph.object?_instantiate]
    exact if_pos rfl
  obtain ⟨t, hname, htypes⟩ := exists_nameObject name
    (s := { u with graph := (u.graph.instantiate _ type.isRoot).2 }) hnew
  have hexec : (create ctx languages atTop typeWord name).exec s =
      (.ok ((u.graph.instantiate (.object type) type.isRoot).1, type), t) := by
    rw [create, Work.exec_bind_of_ok (exec_needLanguage hl _ s)]
    dsimp only
    rw [ht, Work.ofExcept, Work.exec_bind_of_ok (Work.exec_pure type s),
      Work.exec_bind_of_ok hu, instantiate,
      Work.exec_bind_of_ok (Work.exec_modifyGet _ u),
      Work.exec_bind_of_ok hname]
    rfl
  refine ⟨_, t, hexec, htypes.trans ?_⟩
  rw [Graph.types_instantiate, hgraph]

/-- No such type: nothing is created. -/
theorem create_refused (name : Option (Spanned String)) (s : Session)
    {fault : Fault} (hl : (atTop && languages.isEmpty) = false)
    (ht : ctx.metamodel.elementType languages
      (Text.capitalized typeWord.value) = .error fault) :
    (create ctx languages atTop typeWord name).exec s =
      (.error ⟨fault, typeWord.span⟩, s) := by
  rw [create, Work.exec_bind_of_ok (exec_needLanguage hl _ s)]
  dsimp only
  rw [ht]
  rfl

end SessionWork

namespace Build

variable {ctx : BuildContext} {c : Construction}

theorem exec_applyModifiers {scope : Scope} {rest : List Scope}
    (hc : c.scopes = scope :: rest) :
    (applyModifiers ctx).exec c =
      (session (scope.modifiers.forM
        (.applyModifier ctx scope.object scope.type))).exec
          { c with scopes := { scope with modifiers := [] } :: rest } := by
  rw [applyModifiers, Work.exec_bind_of_ok (Work.exec_get c)]
  simp only [hc]
  rw [Work.exec_bind_of_ok (Work.exec_modify _ c)]

/-- A header whose word names a type of which elements can be made creates one
object of it. Only its modifiers can be at fault then. -/
theorem step_start_creates (word : Spanned String)
    (name : Option (Spanned String)) (place : Span) {type : ObjectType}
    (hl : c.languages.isEmpty = false)
    (ht : ctx.metamodel.elementType c.languages
      (Text.capitalized word.value) = .ok type) :
    let header : Spanned Event := ⟨.start word name, place⟩
    ((step ctx header).exec c).2.graph.types =
        c.graph.types ++ [.object type] ∧
      (c.modifiers = [] → ((step ctx header).exec c).1 = .ok ()) := by
  have hneed : (c.scopes.isEmpty && c.languages.isEmpty) = false := by
    rw [hl, Bool.and_false]
  obtain ⟨object, t, hcreate, htypes⟩ :=
    SessionWork.exists_create name c.toSession hneed ht
  have hx : (step ctx ⟨.start word name, place⟩).exec c =
      (session (c.modifiers.forM
        (.applyModifier ctx object (.object type)))).exec { c with
          toSession := t
          scopes := ⟨object, .object type, []⟩ :: c.scopes
          modifiers := [] } := by
    change (start ctx word name).exec c = _
    rw [start, Work.exec_bind_of_ok (Work.exec_get c),
      Work.exec_bind_of_ok (by rw [exec_session, hcreate])]
    dsimp only
    rw [Work.exec_bind_of_ok (Work.exec_modify _ _), push,
      Work.exec_bind_of_ok (Work.exec_modify _ _), exec_applyModifiers rfl]
  refine ⟨?_, fun hm => ?_⟩
  · rw [hx]
    exact (Work.Keeps.forM (SessionWork.keepsTypes_applyModifier object _) _
      t).trans htypes
  · rw [hx, hm]
    rfl

/-- Any other header is at fault, and leaves everything as it was. -/
theorem step_start_refused (word : Spanned String)
    (name : Option (Spanned String)) (place : Span) {fault : Fault}
    (hl : c.languages.isEmpty = false)
    (ht : ctx.metamodel.elementType c.languages
      (Text.capitalized word.value) = .error fault) :
    (step ctx ⟨.start word name, place⟩).exec c =
      (.error ⟨fault, word.span⟩, c) := by
  have hneed : (c.scopes.isEmpty && c.languages.isEmpty) = false := by
    rw [hl, Bool.and_false]
  have hcreate := SessionWork.create_refused name c.toSession hneed ht
  change (start ctx word name).exec c = _
  rw [start, Work.exec_bind_of_ok (Work.exec_get c),
    Work.exec_bind_of_error (by rw [exec_session, hcreate])]

end Build

end ModelText
