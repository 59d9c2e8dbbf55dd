import ModelText.Proofs.Construction.Stack

/-!
# The builder refines the walk

The events of a tree, done one after another on the stack, build what the walk
along the tree builds: the same objects, problems, links, roots and imports. The
proof follows the tree. Behind the opening of a declaration its element is on
top; its members leave the stack as it was; the declarations of a block leave
their elements on it, until the end of the block takes them away.
-/

namespace ModelText

/-- The events of a declaration but for its end. -/
def Declaration.opening : Declaration → Events
  | ⟨modifiers, typeWord, name, members, _⟩ =>
    modifiers.map (fun tag => ⟨.modifier tag.value, tag.span⟩) ++
      ⟨.start typeWord name, headerSpan typeWord name⟩ :: memberEvents members

theorem Declaration.events_eq (d : Declaration) :
    d.events = d.opening ++ [⟨.stop, d.span.lastByte⟩] := by
  obtain ⟨modifiers, typeWord, name, members, span⟩ := d
  simp [Declaration.events, opening]

namespace Build

open Work (OnlyFatal exec_bind_of_ok exec_bind_eq exec_bind_eq_ok)

variable {α β : Type} {c : Construction}

theorem Follows.map {build : Build Unit} {work : SessionWork α}
    {ends : α → List Scope → Prop} {ends' : β → List Scope → Prop} {f : α → β}
    (h : Follows build work c ends)
    (he : ∀ a scopes, ends a scopes → ends' (f a) scopes) :
    Follows build (do let a ← work; return f a) c ends' where
  ok b s hb := by
    obtain ⟨a, t, hw, hb⟩ := exec_bind_eq_ok hb
    cases hb
    obtain ⟨scopes, ha, hx⟩ := h.ok a s hw
    exact ⟨scopes, he a scopes ha, hx⟩
  error f s hb := by
    rcases exec_bind_eq hb with ⟨g, hw, hg⟩ | ⟨a, t, -, hb⟩
    · cases hg
      exact h.error f s hw
    · cases hb

/-- A stretch behind one that changes no more than the pending modifiers. -/
theorem Follows.after {first build : Build Unit} {work : SessionWork β}
    {ends : β → List Scope → Prop} (tags : List (Spanned String))
    (h : Follows build work { c with modifiers := tags } ends)
    (hf : first.exec c = (.ok (), { c with modifiers := tags })) :
    Follows (do first; build) work c ends where
  ok b s hw := by
    rw [exec_bind_of_ok hf]
    exact h.ok b s hw
  error f s hw := by
    rw [exec_bind_of_ok hf]
    exact h.error f s hw

/-- The modifiers before a header wait for the element that it starts. -/
theorem Follows.afterModifiers {build : Build Unit} {work : SessionWork β}
    {ends : β → List Scope → Prop} (ctx : BuildContext)
    (tags : List (Spanned String)) (hm : c.modifiers = [])
    (h : Follows build work { c with modifiers := tags } ends) :
    Follows
      (do
        steps ctx (tags.map fun tag => ⟨.modifier tag.value, tag.span⟩)
        build)
      work c ends := by
  have ht := exec_steps_modifiers ctx tags c
  rw [hm, List.nil_append] at ht
  exact h.after tags ht

/-- The end of an element in a block leaves it on the stack. -/
theorem exec_stop_below {scope enclosing : Scope} {rest : List Scope}
    (hc : c.scopes = scope :: enclosing :: rest) (ctx : BuildContext)
    (span : Span) :
    (recover ctx.unit (step ctx ⟨.stop, span⟩)).exec c = (.ok (), c) := by
  refine Work.exec_recoverBy_of_ok ?_
  change (stop ctx span).exec c = _
  unfold stop
  rw [exec_bind_of_ok (Work.exec_get c)]
  simp only [hc]
  rfl

mutual

theorem follows_opening (ctx : BuildContext) (d : Declaration)
    (c : Construction) (hm : c.modifiers = []) :
    Follows (steps ctx d.opening)
      (d.walk ctx c.languages c.scopes.isEmpty) c
      fun object scopes =>
        ∃ type, scopes = ⟨object, .object type, []⟩ :: c.scopes := by
  obtain ⟨tags, typeWord, name, members, span⟩ := d
  rw [Declaration.opening, Declaration.walk, steps_append]
  apply Follows.afterModifiers ctx tags hm
  -- The header is the first event that changes the session.
  have hs := (follows_start ctx typeWord name { c with modifiers := tags }).recover
    ((OnlyFatal.recovering ctx.unit).declare _ _ _ _ _) ctx.unit
  refine Follows.bind hs ?_
  rintro ⟨object, type⟩ s scopes rfl
  have hb := follows_members ctx members { c with
    toSession := s
    scopes := ⟨object, .object type, []⟩ :: c.scopes
    modifiers := [] } rfl rfl
  refine hb.map ?_
  rintro _ scopes rfl
  exact ⟨type, rfl⟩

theorem follows_members (ctx : BuildContext) (members : List Member)
    (c : Construction) {object : ObjectId} {type : ObjectType}
    {modifiers : List (Spanned String)} {rest : List Scope}
    (hc : c.scopes = ⟨object, .object type, modifiers⟩ :: rest)
    (hm : c.modifiers = []) :
    Follows (steps ctx (memberEvents members))
      (memberWalk ctx c.languages object type members) c
      fun _ scopes => scopes = c.scopes := by
  cases members with
  | nil =>
    rw [memberEvents, memberWalk]
    exact .pure rfl hm
  | cons member members =>
    cases member with
    | slot name value =>
      rw [memberEvents, memberWalk]
      refine .bind (.ofMirrors (.recover (mirrors_assignBy hc name
        fun slot => mirrors_value _ _ _ _ _ c) ctx.unit) hm) ?_
      rintro _ s scopes rfl
      exact follows_members ctx members
        { c with toSession := s, modifiers := [] } hc rfl
    | link feature path =>
      rw [memberEvents, memberWalk]
      refine .bind (.ofMirrors (.recover (mirrors_link hc ctx feature path)
        ctx.unit) hm) ?_
      rintro _ s scopes rfl
      exact follows_members ctx members
        { c with toSession := s, modifiers := [] } hc rfl
    | block feature declarations span =>
      rw [memberEvents, memberWalk, steps, steps_append]
      refine .bind (.recover (follows_blockStart hc hm ctx feature _)
        (.ofExcept _ fun _ => SessionWork.compositionNamed_fatal) _) ?_
      rintro composition s scopes ⟨ht, rfl⟩
      have hn : c.scopes ≠ [] := by
        rw [hc]
        exact List.cons_ne_nil _ _
      refine Follows.bind (follows_declarations ctx declarations
        { c with toSession := s, modifiers := [] } hn rfl) ?_
      -- The elements of the block are on top of the stack, in reverse order.
      rintro children s' scopes ⟨hl, opened, ho, rfl⟩
      rw [← hl, steps]
      have hb := follows_blockEnd (c := { c with
        toSession := s'
        scopes := opened ++ c.scopes
        modifiers := [] }) (congrArg (opened ++ ·) hc) ho rfl ctx feature
        span.lastByte ht
      refine .bind (hb.recover
        ((OnlyFatal.recovering ctx.unit).attach _ _ _ _) _) ?_
      rintro _ t scopes rfl
      have hr := follows_members ctx members { c with
        toSession := t
        scopes := ⟨object, .object type, modifiers⟩ :: rest
        modifiers := [] } rfl rfl
      rw [hc]
      exact hr

theorem follows_declarations (ctx : BuildContext)
    (declarations : List Declaration) (c : Construction)
    (hn : c.scopes ≠ []) (hm : c.modifiers = []) :
    Follows (steps ctx (declarationEvents declarations))
      (declarationWalk ctx c.languages declarations) c
      fun objects scopes => objects.length = declarations.length ∧
        ∃ opened, opened.map Scope.object = objects.reverse ∧
          scopes = opened ++ c.scopes := by
  cases declarations with
  | nil =>
    rw [declarationEvents, declarationWalk]
    exact .pure ⟨rfl, [], rfl, rfl⟩ hm
  | cons d declarations =>
    obtain ⟨enclosing, rest, hc⟩ := List.exists_cons_of_ne_nil hn
    have hd := follows_opening ctx d c hm
    rw [show c.scopes.isEmpty = false by simp [hc]] at hd
    rw [declarationEvents, declarationWalk, Declaration.events_eq,
      List.append_assoc, steps_append]
    refine .bind hd ?_
    rintro object s scopes ⟨type, rfl⟩
    have hs := exec_stop_below (c := { c with
      toSession := s
      scopes := ⟨object, .object type, []⟩ :: c.scopes
      modifiers := [] }) (congrArg _ hc) ctx d.span.lastByte
    have hr := follows_declarations ctx declarations { c with
      toSession := s
      scopes := ⟨object, .object type, []⟩ :: c.scopes
      modifiers := [] } (List.cons_ne_nil _ _) rfl
    have hx := hr.after [] hs
    rw [List.singleton_append, steps]
    refine hx.map ?_
    rintro others scopes ⟨hl, opened, ho, rfl⟩
    refine ⟨by simp [hl], opened ++ [⟨object, .object type, []⟩], ?_, ?_⟩
    · simp [ho]
    · simp

end

/-! ### Items -/

theorem exec_stop_top {scope : Scope} (hc : c.scopes = [scope])
    (ctx : BuildContext) (span : Span) :
    (recover ctx.unit (step ctx ⟨.stop, span⟩)).exec c =
      (.ok (), { c with
        scopes := []
        roots :=
          if c.acceptsRoots ctx.fatalScope ctx.unit.name then
            c.roots ++ [scope.object]
          else c.roots }) := by
  refine Work.exec_recoverBy_of_ok ?_
  change (stop ctx span).exec c = _
  unfold stop
  rw [exec_bind_of_ok (Work.exec_get c)]
  simp only [hc]
  rfl

theorem exec_language (ctx : BuildContext) (name : Spanned String)
    {c : Construction} {w : Walk} (hs : c.toSession = w.toSession)
    (hl : c.languages = w.languages) :
    (recover ctx.unit (step ctx ⟨.language name.value, name.span⟩)).exec c =
      (.ok (), { c with
        toSession := (w.declareLanguage ctx name).toSession
        languages := (w.declareLanguage ctx name).languages }) := by
  refine Work.exec_recoverBy_of_ok ?_
  change (language ctx name.value name.span).exec c = _
  unfold language Walk.declareLanguage
  rw [exec_bind_of_ok (Work.exec_get c), ← hs, ← hl]
  cases hn : c.languages.contains name.value with
  | true => simp [← hs, ← hl]
  | false =>
    by_cases hv : (ctx.metamodel.visibleTypes
        (NameSet.ofList [name.value])).isEmpty = true
    · simp [hv, Work.exec_bind, SessionWork.report]
    · simp [hv]

end Build

namespace Construction

theorem run_append_of_ok {c d : Construction} {ctx : BuildContext}
    {first : Events} (h : (Build.steps ctx first).exec c = (.ok (), d))
    (second : Events) : c.run ctx (first ++ second) = d.run ctx second := by
  rw [run, Build.steps_append, Work.exec_bind_of_ok h]
  rfl

theorem run_append_of_error {c d : Construction} {ctx : BuildContext}
    {first : Events} {f : Spanned Fault}
    (h : (Build.steps ctx first).exec c = (.error f, d)) (second : Events) :
    c.run ctx (first ++ second) = d.reportFault ctx.unit f := by
  rw [run, Build.steps_append, Work.exec_bind_of_error h]

theorem run_cons_of_ok {c d : Construction} {ctx : BuildContext}
    {event : Spanned Event}
    (h : (Build.recover ctx.unit (Build.step ctx event)).exec c = (.ok (), d))
    (rest : Events) : c.run ctx (event :: rest) = d.run ctx rest := by
  rw [run, Build.steps, Work.exec_bind_of_ok h]
  rfl

/-- What a unit under construction hands out is what the walk hands out. -/
structure Agrees (c : Construction) (w : Walk) : Prop where
  session : c.toSession = w.toSession
  imports : c.imports = w.imports
  roots : c.roots = w.roots

/-- Between two items no element is open and no modifier waits. -/
structure Between (c : Construction) (w : Walk) : Prop extends
    Agrees c w where
  languages : c.languages = w.languages
  scopes : c.scopes = []
  modifiers : c.modifiers = []

theorem Between.stop {c : Construction} {w : Walk} (h : Between c w)
    (ctx : BuildContext) (object : ObjectId) (s : Session) :
    Between
      { c with
        toSession := s
        scopes := []
        modifiers := []
        roots :=
          if s.acceptsRoots ctx.fatalScope ctx.unit.name then
            c.roots ++ [object]
          else c.roots }
      (({ w with toSession := s } : Walk).collect ctx object) := by
  unfold Walk.collect
  split
  · exact ⟨⟨rfl, h.imports, congrArg (· ++ [object]) h.roots⟩, h.languages,
      rfl, rfl⟩
  · exact ⟨⟨rfl, h.imports, h.roots⟩, h.languages, rfl, rfl⟩

theorem Between.run_items {c : Construction} {w : Walk} (h : Between c w)
    (ctx : BuildContext) (items : List Item) :
    (c.run ctx (items.flatMap Item.events)).Agrees (w.items ctx items) := by
  induction items generalizing c w with
  | nil => exact h.toAgrees
  | cons item rest ih =>
    rw [List.flatMap_cons]
    cases item with
    | language name =>
      rw [Item.events, List.singleton_append,
        run_cons_of_ok (Build.exec_language ctx name h.session h.languages)]
      refine ih ⟨⟨rfl, ?_, ?_⟩, rfl, h.scopes, h.modifiers⟩
      · rw [w.declareLanguage_imports]
        exact h.imports
      · rw [w.declareLanguage_roots]
        exact h.roots
    | importUnit name =>
      rw [Item.events, List.singleton_append, run_cons_of_ok rfl]
      have hi : c.imports.insert name.value = w.imports.insert name.value :=
        congrArg (NameSet.insert · name.value) h.imports
      exact ih ⟨⟨h.session, hi, h.roots⟩, h.languages, h.scopes, h.modifiers⟩
    | declaration d =>
      have hd := Build.follows_opening ctx d c h.modifiers
      rw [h.languages, show c.scopes.isEmpty = true by simp [h.scopes]] at hd
      rw [Item.events, Declaration.events_eq, List.append_assoc, Walk.items,
        ← h.session]
      rcases hw : (d.walk ctx w.languages true).exec c.toSession
        with ⟨f | object, s⟩
      · obtain ⟨k, hi, hr, hx⟩ := hd.error f s hw
        rw [run_append_of_error hx]
        exact ⟨rfl, hi.trans h.imports, hr.trans h.roots⟩
      · obtain ⟨scopes, ⟨type, rfl⟩, hx⟩ := hd.ok object s hw
        rw [run_append_of_ok hx, List.singleton_append, run_cons_of_ok
          (Build.exec_stop_top (congrArg (List.cons _) h.scopes) ctx _)]
        exact ih (h.stop ctx object s)

theorem begin_between (c : Construction) :
    Between c.begin ⟨c.toSession, .empty, c.imports, c.roots⟩ :=
  ⟨⟨rfl, rfl, rfl⟩, rfl, rfl, rfl⟩

/-- The events of a tree build, from any session, what the walk along the tree
builds: the same objects, the same problems and links in the same order, and
the same roots and imports. Both stop at the first fatal fault. -/
theorem run_events_eq_walk (ctx : BuildContext) (tree : SourceTree)
    (c : Construction) :
    let built := c.begin.run ctx tree.events
    let walked := tree.walk ctx ⟨c.toSession, .empty, c.imports, c.roots⟩
    built.toSession = walked.toSession ∧ built.imports = walked.imports ∧
      built.roots = walked.roots := by
  intro built walked
  have h : built.Agrees walked := c.begin_between.run_items ctx tree.items
  exact ⟨h.session, h.imports, h.roots⟩

/-! ### Units -/

/-- A builder that has handed out what the unit before declared. -/
structure HandedOut (c : Construction) : Prop where
  imports : c.imports = .empty
  roots : c.roots = []

theorem handedOut_new : HandedOut .new := ⟨rfl, rfl⟩

theorem handedOut_finish (c : Construction) : HandedOut c.finish.2 := ⟨rfl, rfl⟩

theorem handedOut_build (c : Construction) (ctx : BuildContext) :
    HandedOut (c.build ctx).2 := by
  unfold build
  dsimp only
  split <;> exact handedOut_finish _

theorem HandedOut.build_eq {c : Construction} (h : HandedOut c)
    (ctx : BuildContext) :
    (c.build ctx).1 = (c.toSession.walkUnit ctx).1 ∧
      (c.build ctx).2.toSession = (c.toSession.walkUnit ctx).2 := by
  unfold build Session.walkUnit Event.ofSource
  cases ht : SourceTree.ofSource ctx.unit.text with
  | error diagnostics =>
    refine ⟨?_, rfl⟩
    change (⟨c.roots, c.imports.toList⟩ : UnitOutcome) = ⟨[], []⟩
    rw [h.imports, h.roots]
    rfl
  | ok tree =>
    have hr : (c.begin.run ctx tree.events).Agrees
        (tree.walk ctx ⟨c.toSession, .empty, .empty, []⟩) := by
      have hb := c.begin_between
      rw [h.imports, h.roots] at hb
      exact hb.run_items ctx tree.items
    refine ⟨?_, hr.session⟩
    change (⟨(c.begin.run ctx tree.events).roots, _⟩ : UnitOutcome) = _
    rw [hr.roots, hr.imports]

end Construction

end ModelText
