import ModelText.Proofs.Construction.Fatal

/-!
# The stack of open elements follows the tree

The steps of a unit's events and the walk along its tree do the same to the
session. `Build.Follows` says so of a stretch of events and the piece of the
walk that they belong to, and says besides how the stack has changed behind
them. The invariant is: behind the members of an element the stack is as it was
before them, with the element on top, and behind the elements of a block these
lie on the stack in reverse order. So the number that the end of a block carries
takes exactly the elements of the block from the stack, and the element that is
on top then is the one that encloses the block.

A fatal fault can end the events anywhere and leave any stack behind. Faults
that are not fatal never get out of a record, so the scope of a record is closed
whenever the events go on.
-/

namespace ModelText

namespace Build

open Work (OnlyFatal exec_bind_of_ok exec_bind_of_error exec_bind_eq
  exec_bind_eq_ok)

variable {α β : Type}

/-! ### Literals -/

/-- The build does what the work on the session does. It leaves the builder as
it was, but for the scopes that a fatal fault can leave open. -/
structure Mirrors (build : Build α) (work : SessionWork α)
    (c : Construction) : Prop where
  ok : ∀ a s, work.exec c.toSession = (.ok a, s) →
    build.exec c = (.ok a, { c with toSession := s })
  error : ∀ f s, work.exec c.toSession = (.error f, s) → ∃ scopes,
    build.exec c = (.error f, { c with toSession := s, scopes := scopes }) ∧
      (f.value.severity.isFatal = false → scopes = c.scopes)

theorem Mirrors.session (work : SessionWork α) (c : Construction) :
    Mirrors (session work) work c where
  ok a s h := by rw [exec_session, h]
  error f s h := ⟨c.scopes, by rw [exec_session, h], fun _ => rfl⟩

theorem Mirrors.pure (a : α) (c : Construction) :
    Mirrors (pure a) (pure a) c :=
  .session (Pure.pure a) c

theorem Mirrors.fail (fault : Fault) (span : Span) (c : Construction) :
    Mirrors (Work.fail fault span : Build α) (Work.fail fault span) c :=
  .session (Work.fail fault span) c

theorem Mirrors.ofExcept (span : Span) (result : Except Fault α)
    (c : Construction) :
    Mirrors (Work.ofExcept span result) (Work.ofExcept span result) c := by
  cases result with
  | ok a => exact .pure a c
  | error fault => exact .fail fault span c

theorem Mirrors.bind {build : Build α} {work : SessionWork α}
    {next : α → Build β} {next' : α → SessionWork β} {c : Construction}
    (hb : Mirrors build work c)
    (hn : ∀ a s, Mirrors (next a) (next' a) { c with toSession := s }) :
    Mirrors (build >>= next) (work >>= next') c where
  ok b s h := by
    obtain ⟨a, t, hw, h⟩ := exec_bind_eq_ok h
    rw [exec_bind_of_ok (hb.ok a t hw)]
    exact (hn a t).ok b s h
  error f s h := by
    rcases exec_bind_eq h with ⟨g, hw, hg⟩ | ⟨a, t, hw, h⟩
    · cases hg
      obtain ⟨scopes, he, hs⟩ := hb.error f s hw
      exact ⟨scopes, exec_bind_of_error he _, hs⟩
    · rw [exec_bind_of_ok (hb.ok a t hw)]
      exact (hn a t).error f s h

theorem Mirrors.recover {build : Build Unit} {work : SessionWork Unit}
    {c : Construction} (hb : Mirrors build work c) (unit : SourceUnit) :
    Mirrors (recover unit build) (SessionWork.recover unit work) c where
  ok a s h := by
    rcases hw : work.exec c.toSession with ⟨f | ⟨⟩, t⟩
    · obtain ⟨scopes, he, hs⟩ := hb.error f t hw
      cases hf : f.value.severity.isFatal with
      | true =>
        rw [SessionWork.recover, Work.exec_recoverBy_of_fatal hw hf] at h
        cases h
      | false =>
        rw [SessionWork.recover, Work.exec_recoverBy_of_error hw hf] at h
        rw [Build.recover, Work.exec_recoverBy_of_error he hf, hs hf]
        cases h
        rfl
    · rw [SessionWork.recover, Work.exec_recoverBy_of_ok hw] at h
      cases h
      exact Work.exec_recoverBy_of_ok (hb.ok () s hw)
  error f s h := by
    rcases hw : work.exec c.toSession with ⟨g | ⟨⟩, t⟩
    · obtain ⟨scopes, he, hs⟩ := hb.error g t hw
      cases hg : g.value.severity.isFatal with
      | true =>
        rw [SessionWork.recover, Work.exec_recoverBy_of_fatal hw hg] at h
        cases h
        exact ⟨scopes, Work.exec_recoverBy_of_fatal he hg, hs⟩
      | false =>
        rw [SessionWork.recover, Work.exec_recoverBy_of_error hw hg] at h
        cases h
    · rw [SessionWork.recover, Work.exec_recoverBy_of_ok hw] at h
      cases h

/-- A record is built in a scope of its own. The scope is closed behind it,
because no fault gets out of the record that would let the building go on. -/
theorem Mirrors.inScope {build : Build Unit} {work : SessionWork Unit}
    {scope : Scope} {c : Construction}
    (hb : Mirrors build work { c with scopes := scope :: c.scopes })
    (hw : OnlyFatal work) (a : α) :
    Mirrors (do push scope; build; pop; return a) (do work; return a) c where
  ok b s h := by
    have hp : (push scope).exec c =
        (.ok (), { c with scopes := scope :: c.scopes }) := rfl
    obtain ⟨x, t, hr, h⟩ := exec_bind_eq_ok h
    rw [exec_bind_of_ok hp, exec_bind_of_ok (hb.ok x t hr)]
    cases h
    rfl
  error f s h := by
    have hp : (push scope).exec c =
        (.ok (), { c with scopes := scope :: c.scopes }) := rfl
    rw [exec_bind_of_ok hp]
    rcases exec_bind_eq h with ⟨g, hr, hg⟩ | ⟨x, t, -, h⟩
    · cases hg
      obtain ⟨scopes, he, -⟩ := hb.error f s hr
      refine ⟨scopes, exec_bind_of_error he _, fun hf => ?_⟩
      rw [hw _ f s hr] at hf
      cases hf
    · cases h

/-- A question to the builder that is answered. -/
theorem Mirrors.answered {build : Build β} {next : β → Build α}
    {work : SessionWork α} {c : Construction} {b : β}
    (hb : build.exec c = (.ok b, c)) (h : Mirrors (next b) work c) :
    Mirrors (build >>= next) work c where
  ok a s hw := by
    rw [exec_bind_of_ok hb]
    exact h.ok a s hw
  error f s hw := by
    rw [exec_bind_of_ok hb]
    exact h.error f s hw

/-- A slot is assigned in the scope on top. -/
theorem mirrors_assignBy {c : Construction} {scope : Scope}
    {rest : List Scope} (hc : c.scopes = scope :: rest) (name : Spanned String)
    {value : Slot → Build Value} {value' : Slot → SessionWork Value}
    (hv : ∀ slot, Mirrors (value slot) (value' slot) c) :
    Mirrors (assignBy name value)
      (SessionWork.assignBy scope.object scope.type name value') c := by
  unfold assignBy SessionWork.assignBy
  apply Mirrors.answered (Work.exec_get c)
  simp only [hc]
  cases scope.type.slot? name.value with
  | none => exact .fail _ _ c
  | some slot => exact .bind (hv slot) fun _ s => .session _ _

mutual

theorem mirrors_value (m : Metamodel) (unit : SourceUnit) (slot : Slot)
    (span : Span) (literal : Literal) (c : Construction) :
    Mirrors (value m unit slot span literal)
      (SessionWork.value m unit slot span literal) c := by
  cases literal with
  | record fields =>
    rw [value, SessionWork.value]
    cases m.lookup? slot.type with
    | none => exact .fail _ _ c
    | some type =>
      cases type with
      | record type =>
        refine .bind (.session _ c) fun object s => ?_
        exact .inScope
          (mirrors_assignFields m unit ⟨object, .record type, []⟩ fields _ rfl)
          ((OnlyFatal.recovering unit).assignFields m object _ fields) _
      | object type => exact .ofExcept _ _ c
      | enumerated type => exact .ofExcept _ _ c
      | primitive type => exact .ofExcept _ _ c
  | _ =>
    rw [value, SessionWork.value]
    cases m.lookup? slot.type with
    | none => exact .fail _ _ c
    | some type => cases type <;> exact .ofExcept _ _ c

theorem mirrors_assignFields (m : Metamodel) (unit : SourceUnit)
    (scope : Scope) (fields : List Field) (c : Construction)
    {rest : List Scope} (hc : c.scopes = scope :: rest) :
    Mirrors (assignFields m unit fields)
      (SessionWork.assignFields m unit scope.object scope.type fields) c := by
  cases fields with
  | nil =>
    rw [assignFields, SessionWork.assignFields]
    exact .pure _ c
  | cons field fields =>
    obtain ⟨name, literal, span⟩ := field
    rw [assignFields, SessionWork.assignFields]
    refine .bind (.recover (mirrors_assignBy hc name fun slot => ?_) unit)
      fun _ s => ?_
    · exact mirrors_value m unit slot span literal c
    · exact mirrors_assignFields m unit scope fields _ hc

end

/-! ### Links and features of the element on top -/

variable {c : Construction} {object : ObjectId} {type : ObjectType}
  {modifiers : List (Spanned String)} {rest : List Scope}

theorem exec_element (hc : c.scopes = ⟨object, .object type, modifiers⟩ :: rest)
    (feature : Spanned String) :
    (element feature).exec c = (.ok (object, type), c) := by
  unfold element
  rw [exec_bind_of_ok (Work.exec_get c)]
  simp only [hc]
  rfl

theorem mirrors_link (hc : c.scopes = ⟨object, .object type, modifiers⟩ :: rest)
    (ctx : BuildContext) (feature : Spanned String)
    (path : Spanned (List String)) :
    Mirrors (link ctx feature path (feature.span.union path.span))
      (SessionWork.link ctx object type feature path) c := by
  unfold link SessionWork.link
  apply Mirrors.answered (exec_element hc feature)
  dsimp only
  cases type.reference? feature.value with
  | some reference => exact .session _ c
  | none =>
    dsimp only
    cases type.literalName? feature.value path.value with
    | none => exact .fail _ _ c
    | some name =>
      exact mirrors_assignBy hc feature fun slot => mirrors_value _ _ _ _ _ c

/-! ### Stretches of events -/

/-- A stretch of events does to the session what the work does, and behind it
the stack is one that `ends` describes. -/
structure Follows (build : Build Unit) (work : SessionWork β)
    (c : Construction) (ends : β → List Scope → Prop) : Prop where
  ok : ∀ b s, work.exec c.toSession = (.ok b, s) → ∃ scopes, ends b scopes ∧
    build.exec c = (.ok (),
      { c with toSession := s, scopes := scopes, modifiers := [] })
  error : ∀ f s, work.exec c.toSession = (.error f, s) → ∃ k : Builder,
    k.imports = c.imports ∧ k.roots = c.roots ∧
      build.exec c = (.error f, ⟨s, k⟩)

theorem Follows.ofMirrors {build : Build Unit} {work : SessionWork Unit}
    (h : Mirrors build work c) (hm : c.modifiers = []) :
    Follows build work c fun _ scopes => scopes = c.scopes where
  ok b s hw := ⟨c.scopes, rfl, by rw [h.ok b s hw, ← hm]⟩
  error f s hw := by
    obtain ⟨scopes, he, -⟩ := h.error f s hw
    exact ⟨{ c.toBuilder with scopes := scopes }, rfl, rfl, he⟩

theorem Follows.bind {build next : Build Unit} {work : SessionWork α}
    {next' : α → SessionWork β} {ends : α → List Scope → Prop}
    {ends' : β → List Scope → Prop} (hb : Follows build work c ends)
    (hn : ∀ a s scopes, ends a scopes → Follows next (next' a)
      { c with toSession := s, scopes := scopes, modifiers := [] } ends') :
    Follows (do build; next) (work >>= next') c ends' where
  ok b s h := by
    obtain ⟨a, t, hw, h⟩ := exec_bind_eq_ok h
    obtain ⟨scopes, he, hb⟩ := hb.ok a t hw
    rw [exec_bind_of_ok hb]
    exact (hn a t scopes he).ok b s h
  error f s h := by
    rcases exec_bind_eq h with ⟨g, hw, hg⟩ | ⟨a, t, hw, h⟩
    · cases hg
      obtain ⟨k, hi, hr, he⟩ := hb.error f s hw
      exact ⟨k, hi, hr, exec_bind_of_error he _⟩
    · obtain ⟨scopes, he, hb⟩ := hb.ok a t hw
      rw [exec_bind_of_ok hb]
      exact (hn a t scopes he).error f s h

theorem Follows.pure {ends : β → List Scope → Prop} {b : β}
    (h : ends b c.scopes) (hm : c.modifiers = []) :
    Follows (pure ()) (pure b) c ends where
  ok a s hw := by
    cases hw
    exact ⟨c.scopes, h, by rw [← hm]; rfl⟩
  error f s hw := by cases hw

/-- Where only fatal faults end the work, there is nothing to recover from. -/
theorem Follows.recover {build : Build Unit} {work : SessionWork β}
    {ends : β → List Scope → Prop} (h : Follows build work c ends)
    (hw : OnlyFatal work) (unit : SourceUnit) :
    Follows (recover unit build) work c ends where
  ok b s hb := by
    obtain ⟨scopes, he, hx⟩ := h.ok b s hb
    exact ⟨scopes, he, Work.exec_recoverBy_of_ok hx⟩
  error f s hb := by
    obtain ⟨k, hi, hr, hx⟩ := h.error f s hb
    exact ⟨k, hi, hr, Work.exec_recoverBy_of_fatal hx (hw _ f s hb)⟩

theorem steps_append (ctx : BuildContext) (first second : Events) :
    steps ctx (first ++ second) =
      (do steps ctx first; steps ctx second) := by
  induction first with
  | nil => simp [steps]
  | cons event first ih => simp [steps, ih]

/-! ### Headers -/

theorem exec_steps_modifiers (ctx : BuildContext)
    (tags : List (Spanned String)) (c : Construction) :
    (steps ctx (tags.map fun tag => ⟨.modifier tag.value, tag.span⟩)).exec c =
      (.ok (), { c with modifiers := c.modifiers ++ tags }) := by
  induction tags generalizing c with
  | nil => simp [steps]
  | cons tag tags ih =>
    have hs : (recover ctx.unit (step ctx ⟨.modifier tag.value, tag.span⟩)).exec
        c = (.ok (), { c with modifiers := c.modifiers ++ [tag] }) := by
      refine Work.exec_recoverBy_of_ok ?_
      rfl
    rw [List.map_cons, steps, exec_bind_of_ok hs, ih]
    simp

/-- An element that starts takes the pending modifiers and is on top of the
stack behind its header. -/
theorem follows_start (ctx : BuildContext) (typeWord : Spanned String)
    (name : Option (Spanned String)) (c : Construction) :
    Follows (start ctx typeWord name)
      (SessionWork.declare ctx c.languages c.scopes.isEmpty c.modifiers
        typeWord name) c
      fun created scopes =>
        scopes = ⟨created.1, .object created.2, []⟩ :: c.scopes where
  ok created t h := by
    obtain ⟨⟨object, type⟩, s, hc, h⟩ := exec_bind_eq_ok h
    obtain ⟨⟨⟩, u, hm, h⟩ := exec_bind_eq_ok h
    cases h
    refine ⟨_, rfl, ?_⟩
    unfold start applyModifiers
    rw [List.forM_eq_forM] at hm
    simp [Work.exec_bind, hc, push, hm]
  error f t h := by
    rcases exec_bind_eq h with ⟨g, hc, hg⟩ | ⟨⟨object, type⟩, s, hc, h⟩
    · cases hg
      refine ⟨c.toBuilder, rfl, rfl, ?_⟩
      unfold start
      simp [Work.exec_bind, hc]
    · rcases exec_bind_eq h with ⟨g, hm, hg⟩ | ⟨⟨⟩, u, -, h⟩
      · cases hg
        refine ⟨{ c.toBuilder with
          modifiers := []
          scopes := ⟨object, .object type, []⟩ :: c.scopes }, rfl, rfl, ?_⟩
        unfold start applyModifiers
        rw [List.forM_eq_forM] at hm
        simp [Work.exec_bind, hc, push, hm]
      · cases h

/-! ### Blocks -/

theorem exec_composition
    (hc : c.scopes = ⟨object, .object type, modifiers⟩ :: rest)
    (feature : Spanned String) :
    (composition feature).exec c =
      match type.compositionNamed feature.value with
      | .ok composition => (.ok (object, composition), c)
      | .error fault => (.error ⟨fault, feature.span⟩, c) := by
  unfold composition
  rw [exec_bind_of_ok (exec_element hc feature)]
  dsimp only
  cases type.compositionNamed feature.value <;> rfl

theorem follows_blockStart
    (hc : c.scopes = ⟨object, .object type, modifiers⟩ :: rest)
    (hm : c.modifiers = []) (ctx : BuildContext) (feature : Spanned String)
    (span : Span) :
    Follows (step ctx ⟨.blockStart feature, span⟩)
      (Work.ofExcept feature.span (type.compositionNamed feature.value)) c
      fun found scopes =>
        type.compositionNamed feature.value = .ok found ∧
          scopes = c.scopes where
  ok found s h := by
    cases ht : type.compositionNamed feature.value with
    | error fault =>
      rw [ht] at h
      cases h
    | ok found =>
      rw [ht] at h
      cases h
      refine ⟨c.scopes, ⟨rfl, rfl⟩, ?_⟩
      change (composition feature >>= fun _ => Pure.pure ()).exec c = _
      rw [exec_bind_of_ok (by rw [exec_composition hc, ht]), ← hm]
      rfl
  error f s h := by
    cases ht : type.compositionNamed feature.value with
    | ok found =>
      rw [ht] at h
      cases h
    | error fault =>
      rw [ht] at h
      cases h
      refine ⟨c.toBuilder, rfl, rfl, ?_⟩
      change (composition feature >>= fun _ => Pure.pure ()).exec c = _
      exact exec_bind_of_error (by rw [exec_composition hc, ht]) _

theorem exec_popMany {opened below : List Scope}
    (hc : c.scopes = opened ++ below) (span : Span) :
    (popMany opened.length span).exec c =
      (.ok opened.reverse, { c with scopes := below }) := by
  unfold popMany
  rw [exec_bind_of_ok (Work.exec_get c)]
  dsimp only
  rw [if_neg (by simp [hc]), exec_bind_of_ok (Work.exec_modify _ c)]
  simp [hc]

/-- The end of a block takes the elements of the block from the stack and
attaches them to the element that is on top without them. -/
theorem follows_blockEnd {opened : List Scope} {children : List ObjectId}
    {composition : Feature}
    (hc : c.scopes = opened ++ ⟨object, .object type, modifiers⟩ :: rest)
    (ho : opened.map (·.object) = children.reverse)
    (hm : c.modifiers = []) (ctx : BuildContext) (feature : Spanned String)
    (span : Span)
    (ht : type.compositionNamed feature.value = .ok composition) :
    Follows (blockEnd ctx feature children.length span)
      (SessionWork.attach ctx feature.span composition object children) c
      fun _ scopes => scopes = ⟨object, .object type, modifiers⟩ :: rest := by
  have hl : children.length = opened.length := by
    have := congrArg List.length ho
    simpa using this.symm
  have hr : opened.reverse.map (·.object) = children := by
    rw [List.map_reverse, ho, List.reverse_reverse]
  have hx : (blockEnd ctx feature children.length span).exec c =
      (session (.attach ctx feature.span composition object children)).exec
        { c with scopes := ⟨object, .object type, modifiers⟩ :: rest } := by
    unfold blockEnd
    rw [hl, exec_bind_of_ok (exec_popMany hc span),
      exec_bind_of_ok (a := (object, composition))
        (by rw [exec_composition rfl, ht]), hr]
  constructor
  · intro b s h
    refine ⟨_, rfl, ?_⟩
    rw [hx, exec_session, h, ← hm]
  · intro f s h
    refine ⟨{ c.toBuilder with
      scopes := ⟨object, .object type, modifiers⟩ :: rest }, rfl, rfl, ?_⟩
    rw [hx, exec_session, h]

end Build

end ModelText
