import ModelText.Proofs.Construction.Calm
import ModelText.Proofs.Construction.Refinement

/-!
# Where a unit breaks off

A run of events goes to its end unless a fatal fault ends it at one of them.
Then the events before have been done, the event with the fault has been done
as far as the fault let it, and the events behind are not looked at. Up to this
place the events of a unit report nothing fatal, so the fault at which the unit
breaks off is the only fatal problem of its events.
-/

namespace ModelText

theorem Severity.eq_fatal {severity : Severity}
    (h : severity.isFatal = true) : severity = .fatal := by
  cases severity with
  | fatal => rfl
  | _ => cases h

theorem Event.ofSource_eq_ok {text : String} {events : Events}
    (h : ofSource text = .ok events) :
    ∃ tree, SourceTree.ofSource text = .ok tree ∧ events = tree.events := by
  unfold ofSource at h
  cases ht : SourceTree.ofSource text with
  | error diagnostics =>
    rw [ht] at h
    cases h
  | ok tree =>
    rw [ht] at h
    exact ⟨tree, rfl, (Except.ok.inj h).symm⟩

theorem Event.ofSource_of_error {text : String}
    {diagnostics : List Diagnostic}
    (h : SourceTree.ofSource text = .error diagnostics) :
    ofSource text = .error diagnostics := by
  unfold ofSource
  rw [h]
  rfl

namespace Build

variable {ctx : BuildContext} {c d : Construction} {f : Spanned Fault}

/-- A fault that comes out of a recovery is a fatal one. -/
theorem recover_eq_error {unit : SourceUnit} {build : Build Unit}
    (h : (recover unit build).exec c = (.error f, d)) :
    build.exec c = (.error f, d) ∧ f.value.severity = .fatal := by
  rcases hb : build.exec c with ⟨g | ⟨⟩, e⟩
  · cases hg : g.value.severity.isFatal with
    | true =>
      rw [recover, Work.exec_recoverBy_of_fatal hb hg] at h
      cases h
      exact ⟨rfl, Severity.eq_fatal hg⟩
    | false =>
      rw [recover, Work.exec_recoverBy_of_error hb hg] at h
      cases h
  · rw [recover, Work.exec_recoverBy_of_ok hb] at h
    cases h

end Build

namespace Construction

/-- The run of some events breaks off behind those that are done, at the event
that comes next: its step raises a fatal fault and leaves `d`. -/
structure BreaksOff (c : Construction) (ctx : BuildContext) (done : Events)
    (event : Spanned Event) (f : Spanned Fault) (d : Construction) : Prop where
  step : ∃ e, (Build.steps ctx done).exec c = (.ok (), e) ∧
    (Build.step ctx event).exec e = (.error f, d)
  fatal : f.value.severity = .fatal

variable {ctx : BuildContext} {c d : Construction} {f : Spanned Fault}

/-- A run that does not come to its end breaks off at one of its events. -/
theorem breaksOff_of_steps {events : Events}
    (h : (Build.steps ctx events).exec c = (.error f, d)) :
    ∃ done event rest, events = done ++ event :: rest ∧
      c.BreaksOff ctx done event f d := by
  induction events generalizing c with
  | nil => cases h
  | cons event rest ih =>
    rcases Work.exec_bind_eq h with ⟨g, hg, he⟩ | ⟨⟨⟩, e, hok, hrest⟩
    · cases he
      obtain ⟨hstep, hfatal⟩ := Build.recover_eq_error hg
      exact ⟨[], event, rest, rfl, ⟨c, rfl, hstep⟩, hfatal⟩
    · obtain ⟨done, next, others, rfl, ⟨e', hdone, hstep⟩, hfatal⟩ := ih hrest
      refine ⟨event :: done, next, others, rfl, ⟨e', ?_, hstep⟩, hfatal⟩
      rw [Build.steps, Work.exec_bind_of_ok hok, hdone]

theorem Between.declareLanguage {w : Walk} (h : Between c w)
    (ctx : BuildContext) (name : Spanned String) :
    Between
      { c with
        toSession := (w.declareLanguage ctx name).toSession
        languages := (w.declareLanguage ctx name).languages }
      (w.declareLanguage ctx name) := by
  refine ⟨⟨rfl, ?_, ?_⟩, rfl, h.scopes, h.modifiers⟩
  · rw [w.declareLanguage_imports]
    exact h.imports
  · rw [w.declareLanguage_roots]
    exact h.roots

theorem Between.importUnit {w : Walk} (h : Between c w)
    (name : Spanned String) :
    Between { c with imports := c.imports.insert name.value }
      { w with imports := w.imports.insert name.value } :=
  ⟨⟨h.session, congrArg (NameSet.insert · name.value) h.imports, h.roots⟩,
    h.languages, h.scopes, h.modifiers⟩

/-- Up to its end, or to the event at which it breaks off, the run of the events
of a unit reports nothing fatal. -/
theorem Between.calm_steps {w : Walk} (h : Between c w) (ctx : BuildContext)
    (items : List Item) {r : Except (Spanned Fault) Unit}
    (hr : (Build.steps ctx (items.flatMap Item.events)).exec c = (r, d)) :
    c.sink.Calm d.sink := by
  induction items generalizing c w with
  | nil =>
    cases hr
    exact .refl _
  | cons item rest ih =>
    rw [List.flatMap_cons] at hr
    cases item with
    | language name =>
      have hx := Build.exec_language ctx name h.session h.languages
      rw [Item.events, List.singleton_append, Build.steps,
        Work.exec_bind_of_ok hx] at hr
      have hl := (w.remarked_declareLanguage ctx name).calm
      rw [← h.session] at hl
      exact hl.trans (ih (h.declareLanguage ctx name) hr)
    | importUnit name =>
      have hx : (Build.recover ctx.unit (Build.step ctx
          ⟨.importUnit name.value, name.span⟩)).exec c =
        (.ok (), { c with imports := c.imports.insert name.value }) := rfl
      rw [Item.events, List.singleton_append, Build.steps,
        Work.exec_bind_of_ok hx] at hr
      have hcalm := ih (h.importUnit name) hr
      exact hcalm
    | declaration decl =>
      have hd := Build.follows_opening ctx decl c h.modifiers
      rw [h.languages, show c.scopes.isEmpty = true by simp [h.scopes]] at hd
      rw [Item.events, Declaration.events_eq, List.append_assoc,
        Build.steps_append] at hr
      have hcalm r s h := ((Work.Remarks.recovering ctx.unit).walk w.languages
        true decl c.toSession r s h).calm
      rcases hw : (decl.walk ctx w.languages true).exec c.toSession
        with ⟨f | object, s⟩
      · obtain ⟨k, -, -, hx⟩ := hd.error f s hw
        rw [Work.exec_bind_of_error hx] at hr
        cases hr
        exact hcalm _ s hw
      · obtain ⟨scopes, ⟨type, rfl⟩, hx⟩ := hd.ok object s hw
        rw [Work.exec_bind_of_ok hx, List.singleton_append, Build.steps,
          Work.exec_bind_of_ok (Build.exec_stop_top
            (congrArg (List.cons _) h.scopes) ctx _)] at hr
        exact (hcalm _ s hw).trans (ih (h.stop ctx object s) hr)

/-- How the run of the events of a unit ends: what it has told, and the state
in which it leaves the unit. It goes through all events, or breaks off at one
of them and tells this fault last. -/
inductive Ends (c : Construction) (ctx : BuildContext) (events : Events) :
    List Problem → Construction → Prop
  | through {told : List Problem} {d : Construction}
      (hd : (Build.steps ctx events).exec c = (.ok (), d))
      (hn : ∀ p ∈ told, p.severity.isFatal = false) : Ends c ctx events told d
  | broken {done rest : Events} {event : Spanned Event} {others : List Problem}
      {f : Spanned Fault} {d : Construction}
      (he : events = done ++ event :: rest)
      (hb : c.BreaksOff ctx done event f d)
      (hn : ∀ p ∈ others, p.severity.isFatal = false) :
      Ends c ctx events (others ++
        [.locate ctx.unit.name ctx.unit.text (Fault.diagnostic f)]) d

/-- At most one of the problems that a unit tells is fatal: the last one. -/
theorem Ends.length_fatal_le {events : Events} {told : List Problem}
    (h : c.Ends ctx events told d) :
    (told.filter (·.severity.isFatal)).length ≤ 1 := by
  cases h with
  | through _ hn =>
    rw [List.filter_eq_nil_iff.2 fun p hp => by simp [hn p hp]]
    exact Nat.zero_le 1
  | broken _ _ hn =>
    rw [List.filter_append,
      List.filter_eq_nil_iff.2 fun p hp => by simp [hn p hp]]
    exact List.length_filter_le _ _

/-- Building a unit with events is their run: nothing else adds to the graph, to
the links that wait or to the imports of the unit. -/
theorem ends_build (ctx : BuildContext) {events : Events}
    (he : Event.ofSource ctx.unit.text = .ok events)
    (hp : c.sink.problems ctx.unit.name = []) :
    ∃ d, c.begin.Ends ctx events
        ((c.build ctx).2.sink.problems ctx.unit.name) d ∧
      (c.build ctx).1.imports = d.imports.toList ∧
      (c.build ctx).2.graph = d.graph ∧
      (c.build ctx).2.requests = d.requests := by
  obtain ⟨tree, -, rfl⟩ := Event.ofSource_eq_ok he
  have hcalm : ∀ r d, (Build.steps ctx tree.events).exec c.begin = (r, d) →
      ∀ p ∈ d.sink.problems ctx.unit.name, p.severity.isFatal = false := by
    intro r d hr p hm
    have hcalm := c.begin_between.calm_steps ctx tree.items hr
    have hu := hcalm.units ctx.unit.name
    have hb : c.begin.sink.hasFatalIn ctx.unit.name = false := by
      unfold Sink.hasFatalIn
      rw [show c.begin.sink = c.sink from rfl, hp]
      rfl
    rw [hb] at hu
    simpa using List.any_eq_false.1 hu p hm
  unfold build
  simp only [he]
  unfold run
  rcases hr : (Build.steps ctx tree.events).exec c.begin with ⟨f | ⟨⟩, d⟩
  · obtain ⟨done, event, rest, hev, hb⟩ := breaksOff_of_steps hr
    refine ⟨d, ?_, rfl, rfl, rfl⟩
    have ht : (d.reportFault ctx.unit f).sink.problems ctx.unit.name =
        d.sink.problems ctx.unit.name ++
          [.locate ctx.unit.name ctx.unit.text (Fault.diagnostic f)] := by
      refine (Sink.problems_report _ _ _).trans (if_pos ?_)
      exact (Problem.source_locate _ _ _).symm
    have hx := Ends.broken (c := c.begin) hev hb (hcalm _ d hr)
    rw [← ht] at hx
    exact hx
  · exact ⟨d, .through hr (hcalm _ d hr), rfl, rfl, rfl⟩

/-- A unit without events declares nothing and adds nothing but problems. -/
theorem HandedOut.build_of_error (h : HandedOut c) (ctx : BuildContext)
    {diagnostics : List Diagnostic}
    (he : Event.ofSource ctx.unit.text = .error diagnostics) :
    (c.build ctx).1 = ⟨[], []⟩ ∧ (c.build ctx).2.graph = c.graph ∧
      (c.build ctx).2.requests = c.requests := by
  unfold build
  simp only [he, Session.foldl_reportIn]
  refine ⟨?_, rfl, rfl⟩
  change (⟨c.roots, c.imports.toList⟩ : UnitOutcome) = ⟨[], []⟩
  rw [h.imports, h.roots]
  rfl

end Construction

end ModelText
