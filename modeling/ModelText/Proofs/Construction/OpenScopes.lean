import ModelText.Proofs.Construction.Refinement
import ModelText.Proofs.Construction.UnitMoves

/-!
# Open scopes stand in the graph

While a unit is built, the elements that are open are objects of the graph, of
the types that their scopes say. A unit begins without open elements. One step
keeps this, whatever its event: the header of an element creates the object
before it opens the scope, no other step opens a scope that stays open, and what
building does to a session leaves the types of objects as they are. So the
invariant holds behind any events that no fatal fault has ended.
-/

namespace ModelText

/-- The open elements and records are objects of the types of their scopes. -/
def Construction.Stands (c : Construction) : Prop :=
  ∀ scope ∈ c.scopes, c.graph.type? scope.object = some scope.type

theorem Construction.stands_begin (c : Construction) : c.begin.Stands := nofun

namespace Construction.Stands

variable {c d : Construction} {m : Metamodel} {source : String}

/-- Scopes may be closed, and the session may be moved on. -/
theorem moved (h : c.Stands) (hm : c.toSession.Moves m source d.toSession)
    (hs : d.scopes ⊆ c.scopes) : d.Stands :=
  fun scope hx => hm.type? (h scope (hs hx))

/-- Scopes may be closed where the graph stays as it is. -/
theorem closed (h : c.Stands) (hg : d.graph = c.graph)
    (hs : d.scopes ⊆ c.scopes) : d.Stands := by
  intro scope hx
  rw [hg]
  exact h scope (hs hx)

/-- The scope of a new object may be opened. -/
theorem opened (h : c.Stands) (type : StructuredType) (isRoot : Bool) :
    Construction.Stands { c with
      graph := (c.graph.instantiate type isRoot).2
      scopes := ⟨(c.graph.instantiate type isRoot).1, type, []⟩ :: c.scopes } :=
  List.forall_mem_cons.2 ⟨Graph.type?_instantiate_self _ _ _,
    fun scope hm => Graph.type?_instantiate_of_some (h scope hm)⟩

end Construction.Stands

namespace Build

open Work (Makes OnlyFatal exec_bind_eq_ok)

variable {ctx : BuildContext} {c d : Construction}

/-! ### Work that is done -/

/-- Where only fatal faults end the work, work that goes on is done. -/
theorem exec_of_recover {unit : SourceUnit} {build : Build Unit}
    (hb : OnlyFatal build) (h : (recover unit build).exec c = (.ok (), d)) :
    build.exec c = (.ok (), d) := by
  rcases hx : build.exec c with ⟨f | ⟨⟩, e⟩
  · rw [recover, Work.exec_recoverBy_of_fatal hx (hb c f e hx)] at h
    cases h
  · rw [recover, Work.exec_recoverBy_of_ok hx] at h
    cases h
    rfl

theorem exec_session_eq_ok {α : Type} {work : SessionWork α} {a : α}
    (h : (session work).exec c = (.ok a, d)) :
    ∃ s, work.exec c.toSession = (.ok a, s) ∧
      d = { c with toSession := s } := by
  rw [exec_session] at h
  obtain ⟨hr, rfl⟩ := Prod.mk.inj h
  exact ⟨_, Prod.ext hr rfl, rfl⟩

theorem onlyFatal_session {α : Type} {work : SessionWork α}
    (h : OnlyFatal work) : OnlyFatal (session work) := by
  intro c f d hx
  rw [exec_session] at hx
  exact h _ f _ (Prod.ext (Prod.mk.inj hx).1 rfl)

/-- Work that mirrors moves of the session leaves the open scopes as they are. -/
theorem Mirrors.stands {build : Build Unit} {work : SessionWork Unit}
    {m : Metamodel} {source : String} {post : Unit → Session → Prop}
    (h : Mirrors build work c) (hw : Makes m source work c.toSession post)
    (hc : c.Stands) (hx : build.exec c = (.ok (), d)) : d.Stands := by
  rcases hs : work.exec c.toSession with ⟨f | ⟨⟩, s⟩
  · obtain ⟨scopes, he, -⟩ := h.error f s hs
    rw [he] at hx
    cases hx
  · rw [h.ok () s hs] at hx
    cases hx
    exact hc.moved (hw.moves _ s hs) (List.Subset.refl _)

/-! ### Features of the element on top -/

theorem onlyFatal_element (feature : Spanned String) :
    OnlyFatal (element feature) := by
  refine .bind (fun s f t h => by cases h) fun c => ?_
  split
  · exact .fail rfl _
  · exact .pure _
  · exact .fail rfl _

theorem element_eq_ok {feature : Spanned String} {found : ObjectId × ObjectType}
    (h : (element feature).exec c = (.ok found, d)) :
    d = c ∧ ∃ modifiers rest,
      c.scopes = ⟨found.1, .object found.2, modifiers⟩ :: rest := by
  obtain ⟨_, _, hg, h⟩ := exec_bind_eq_ok h
  cases hg
  split at h
  · cases h
  · next object type modifiers rest hs =>
    cases h
    exact ⟨rfl, modifiers, rest, hs⟩
  · cases h

theorem onlyFatal_composition (feature : Spanned String) :
    OnlyFatal (composition feature) :=
  .bind (onlyFatal_element feature) fun _ =>
    .bind (.ofExcept _ fun _ => SessionWork.compositionNamed_fatal) fun _ =>
      .pure _

theorem composition_eq_ok {feature : Spanned String} {found : ObjectId × Feature}
    (h : (composition feature).exec c = (.ok found, d)) :
    d = c ∧ ∃ type modifiers rest,
      c.scopes = ⟨found.1, .object type, modifiers⟩ :: rest ∧
        type.compositionNamed feature.value = .ok found.2 := by
  obtain ⟨⟨object, type⟩, e, he, hnext⟩ := exec_bind_eq_ok h
  obtain ⟨rfl, modifiers, rest, hs⟩ := element_eq_ok he
  obtain ⟨composition, e', hf, hlast⟩ := exec_bind_eq_ok hnext
  obtain ⟨hn, rfl⟩ := Work.exec_ofExcept_eq_ok hf
  cases hlast
  exact ⟨rfl, type, modifiers, rest, hs, hn⟩

theorem onlyFatal_popMany (count : Nat) (span : Span) :
    OnlyFatal (popMany count span) := by
  refine .bind (fun s f t h => by cases h) fun c => ?_
  dsimp only
  split
  · exact .fail rfl _
  · exact .bind (fun s f t h => by cases h) fun _ => .pure _

theorem popMany_eq_ok {count : Nat} {span : Span} {closed : List Scope}
    (h : (popMany count span).exec c = (.ok closed, d)) :
    d = { c with scopes := c.scopes.drop count } := by
  obtain ⟨_, _, hg, h⟩ := exec_bind_eq_ok h
  cases hg
  dsimp only at h
  split at h
  · cases h
  · cases h
    rfl

/-! ### Steps -/

theorem stands_start (hc : c.Stands) {typeWord : Spanned String}
    {name : Option (Spanned String)} {span : Span}
    (h : (recover ctx.unit (step ctx ⟨.start typeWord name, span⟩)).exec c =
      (.ok (), d)) : d.Stands := by
  have hs := (follows_start ctx typeWord name c).recover
    ((OnlyFatal.recovering ctx.unit).declare _ _ _ _ _) ctx.unit
  rcases hw : (SessionWork.declare ctx c.languages c.scopes.isEmpty c.modifiers
    typeWord name).exec c.toSession with ⟨f | created, s⟩
  · obtain ⟨k, -, -, hx⟩ := hs.error f s hw
    have he := hx.symm.trans h
    cases he
  · obtain ⟨scopes, rfl, hx⟩ := hs.ok created s hw
    have he := hx.symm.trans h
    cases he
    have hmakes := SessionWork.makes_declare ctx c.languages c.scopes.isEmpty
      c.modifiers typeWord name c.toSession
    exact List.forall_mem_cons.2 ⟨hmakes.post created s hw,
      fun scope hm => (hmakes.moves _ s hw).type? (hc scope hm)⟩

theorem stands_stop (hc : c.Stands) {span : Span}
    (h : (recover ctx.unit (step ctx ⟨.stop, span⟩)).exec c = (.ok (), d)) :
    d.Stands := by
  cases hs : c.scopes with
  | nil =>
    have hx : (step ctx ⟨.stop, span⟩).exec c =
        (.error ⟨.endWithoutStart, span⟩, c) := by
      change (stop ctx span).exec c = _
      rw [stop, Work.exec_bind_of_ok (Work.exec_get c)]
      simp only [hs]
      rfl
    rw [recover, Work.exec_recoverBy_of_fatal hx rfl] at h
    cases h
  | cons scope rest =>
    cases rest with
    | nil =>
      rw [exec_stop_top hs] at h
      cases h
      exact fun _ hm => absurd hm List.not_mem_nil
    | cons enclosing rest =>
      rw [exec_stop_below hs] at h
      cases h
      exact hc

theorem stands_blockEnd (hc : c.Stands) {feature : Spanned String}
    {count : Nat} {span : Span}
    (h : (recover ctx.unit (step ctx ⟨.blockEnd feature count, span⟩)).exec c =
      (.ok (), d)) : d.Stands := by
  have honly : OnlyFatal (blockEnd ctx feature count span) :=
    .bind (onlyFatal_popMany count span) fun _ =>
      .bind (onlyFatal_composition feature) fun _ =>
        onlyFatal_session ((OnlyFatal.recovering ctx.unit).attach _ _ _ _)
  obtain ⟨children, c', hp, hnext⟩ := exec_bind_eq_ok (exec_of_recover honly h)
  obtain ⟨⟨parent, composition⟩, e, hf, hattach⟩ := exec_bind_eq_ok hnext
  obtain ⟨rfl, type, modifiers, rest, hs, hn⟩ := composition_eq_ok hf
  obtain ⟨s, ha, rfl⟩ := exec_session_eq_ok hattach
  -- the children are closed first, and then attached to what is below them
  have hc' : e.Stands := by
    rw [popMany_eq_ok hp]
    exact hc.closed rfl (List.drop_subset _ _)
  have ht := hc' _ (hs ▸ List.mem_cons_self)
  exact hc'.moved ((SessionWork.makes_attach ctx feature.span
    (ObjectType.composition?_of_compositionNamed hn) _ ht).moves _ s ha)
    (List.Subset.refl _)

theorem stands_slot (hc : c.Stands) {name : Spanned String}
    {literal : Spanned Literal}
    (h : (recover ctx.unit (assign ctx.metamodel ctx.unit name literal)).exec c =
      (.ok (), d)) : d.Stands := by
  cases hs : c.scopes with
  | nil =>
    have hx : (assign ctx.metamodel ctx.unit name literal).exec c =
        (.error ⟨.slotOutside, name.span⟩, c) := by
      rw [assign, assignBy, Work.exec_bind_of_ok (Work.exec_get c)]
      simp only [hs]
      rfl
    rw [recover, Work.exec_recoverBy_of_fatal hx rfl] at h
    cases h
  | cons scope rest =>
    have hm := (mirrors_assignBy hs name fun slot => mirrors_value
      ctx.metamodel ctx.unit slot literal.span literal.value c).recover ctx.unit
    have ht := hc scope (hs ▸ List.mem_cons_self)
    exact hm.stands (SessionWork.makes_recover
      (SessionWork.makes_assign ctx scope.type name literal ht)) hc h

/-- The scope that fields are assigned to stays open. -/
theorem stands_assignFields (hc : c.Stands) {m : Metamodel} {unit : SourceUnit}
    {scope : Scope} {rest : List Scope} (hs : c.scopes = scope :: rest)
    {fields : List Field}
    (h : (assignFields m unit fields).exec c = (.ok (), d)) : d.Stands :=
  (mirrors_assignFields m unit scope fields c hs).stands
    (SessionWork.makes_assignFields m unit scope.object scope.type fields
      c.toSession (hc scope (hs ▸ List.mem_cons_self))) hc h

theorem stands_link (hc : c.Stands) {feature : Spanned String}
    {path : Spanned (List String)} {span : Span}
    (h : (recover ctx.unit (step ctx ⟨.link feature path, span⟩)).exec c =
      (.ok (), d)) : d.Stands := by
  rcases he : (element feature).exec c with ⟨f | ⟨object, type⟩, e⟩
  · have hx : (step ctx ⟨.link feature path, span⟩).exec c = (.error f, e) :=
      Work.exec_bind_of_error he _
    rw [recover, Work.exec_recoverBy_of_fatal hx
      (onlyFatal_element feature c f e he)] at h
    cases h
  · obtain ⟨rfl, modifiers, rest, hs⟩ := element_eq_ok he
    have hx : (step ctx ⟨.link feature path, span⟩).exec e = _ :=
      Work.exec_bind_of_ok he _
    rw [recover, Work.exec_recoverBy, hx, ← Work.exec_recoverBy] at h
    dsimp only at h
    cases hr : type.reference? feature.value with
    | some reference =>
      rw [hr] at h
      cases h
      exact hc.closed rfl (List.Subset.refl _)
    | none =>
      rw [hr] at h
      dsimp only at h
      cases hl : type.literalName? feature.value path.value with
      | some name =>
        -- what looks like a link gives an enumerated value to a slot
        rw [hl] at h
        exact stands_slot hc h
      | none =>
        rw [hl] at h
        cases h

/-- One step leaves open only what stands in the graph. -/
theorem stands_step (hc : c.Stands) {event : Spanned Event}
    (h : (recover ctx.unit (step ctx event)).exec c = (.ok (), d)) :
    d.Stands := by
  obtain ⟨event, span⟩ := event
  cases event with
  | language name =>
    rw [exec_language ctx ⟨name, span⟩
      (w := ⟨c.toSession, c.languages, c.imports, c.roots⟩) rfl rfl] at h
    cases h
    exact hc.moved (Walk.moves_declareLanguage
      ⟨c.toSession, c.languages, c.imports, c.roots⟩ ctx ⟨name, span⟩)
      (List.Subset.refl _)
  | importUnit name =>
    cases h
    exact hc
  | modifier tag =>
    cases h
    exact hc
  | start typeWord name => exact stands_start hc h
  | stop => exact stands_stop hc h
  | slot name literal => exact stands_slot hc h
  | blockStart feature =>
    have honly : OnlyFatal (do let _ ← composition feature : Build Unit) :=
      .bind (onlyFatal_composition feature) fun _ => .pure _
    obtain ⟨found, e, hf, hlast⟩ :=
      exec_bind_eq_ok (exec_of_recover honly h)
    cases hlast
    rw [(composition_eq_ok hf).1]
    exact hc
  | blockEnd feature count => exact stands_blockEnd hc h
  | link feature path => exact stands_link hc h

/-- Behind events that no fatal fault has ended, all that is open stands in the
graph. -/
theorem stands_steps (hc : c.Stands) {events : Events}
    (h : (steps ctx events).exec c = (.ok (), d)) : d.Stands := by
  induction events generalizing c with
  | nil =>
    cases h
    exact hc
  | cons event rest ih =>
    obtain ⟨⟨⟩, e, he, hrest⟩ := exec_bind_eq_ok h
    exact ih (stands_step hc he) hrest

end Build

end ModelText
