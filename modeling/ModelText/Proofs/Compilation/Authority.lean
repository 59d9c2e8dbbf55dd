import ModelText.Proofs.Compilation.Ownership
import ModelText.Proofs.Compilation.Targets
import ModelText.Proofs.Compilation.UnitView
import ModelText.Proofs.Construction.LinkPass

/-!
# Authoritative results

A result without errors is authoritative. All that its unit declares is there
then, with elements of its own, also where other units have errors. Its roots are
the elements of the declarations at the top level, unless the scope of the
session has shut the gate: a fatal problem of any unit before it keeps all its
elements from becoming roots. A unit that comes to its end without a fatal problem
of its own meets the gate either open or shut all the time.
-/

namespace ModelText

/-! ### Fatal problems -/

namespace Sink

theorem Calm.hasFatal {s t : Sink} (h : s.Calm t) : t.hasFatal = s.hasFatal := by
  rw [Bool.eq_iff_iff, hasFatal_iff, hasFatal_iff]
  simp only [h.units]

end Sink

/-- Links that are not made are errors, but not fatal ones. -/
theorem Linking.calm_ofRequests {g : Graph} (ha : Graph.Acyclic g.HeldBy)
    {requests : List LinkRequest}
    (hi : ∀ r ∈ requests, r.scope.index < g.size) (sink : Sink) :
    sink.Calm (ofRequests requests g sink).sink := by
  rw [sink_ofRequests]
  refine Sink.calm_foldl_report (fun p hp => ?_) sink
  obtain ⟨o, ho, hp⟩ := List.mem_filterMap.1 hp
  rw [severity_of_problem? ha hi ho hp]
  rfl

namespace Workspace

variable {w : Workspace} {names : List String} {name : String} {s : Session}

/-- The gate of the session is open for all elements of a unit, or for none. -/
theorem kept_endings (w : Workspace) (name : String) (s : Session)
    (scope : FatalScope) :
    scope.kept (w.endings name s) =
      if scope = .session ∧ s.sink.hasFatal = true then []
      else (w.endings name s).map (·.object) := by
  have hcalm : ∀ e ∈ w.endings name s,
      e.session.sink.hasFatal = s.sink.hasFatal := by
    intro e he
    unfold endings Session.endings at he
    cases hf : w.fetch name with
    | none =>
      rw [hf] at he
      cases he
    | some text =>
      rw [hf] at he
      dsimp only at he
      cases ht : SourceTree.ofSource (w.context name text).unit.text with
      | error diagnostics =>
        rw [ht] at he
        cases he
      | ok tree =>
        rw [ht] at he
        exact (Walk.calm_endings _ tree.items _ e he).hasFatal
  cases scope with
  | unit => exact (if_neg fun h => nomatch h.1).symm
  | session =>
    unfold FatalScope.kept
    by_cases hs : s.sink.hasFatal = true
    · rw [if_pos ⟨rfl, hs⟩, List.map_eq_nil_iff, List.filter_eq_nil_iff]
      intro e he
      rw [hcalm e he, hs]
      decide
    · rw [if_neg fun h => hs h.2]
      refine congrArg (List.map _) (List.filter_eq_self.2 fun e he => ?_)
      rw [hcalm e he]
      simpa using hs

/-! ### The session behind units -/

theorem map_fst_roll (names : List String) (s : Session) :
    (w.roll names s).map Prod.fst = names := by
  induction names generalizing s with
  | nil => rfl
  | cons name rest ih => rw [roll, List.map_cons, ih]

theorem session_built (w : Workspace) (names : List String) :
    (w.built names).toSession = w.behind names .empty :=
  Progress.session_addUnits names Construction.handedOut_new

theorem problems_behind (hd : names.Nodup) (source : String) :
    (w.behind names .empty).sink.problems source =
      if source ∈ names then (w.share source).sink.problems source else [] := by
  have hp := ((Progress.sound_start w).addUnits hd).problems source
  have hn : (names.foldl (Progress.addUnit w) .start).processed = names :=
    Progress.processed_addBatch w .start names
  rw [hn] at hp
  rw [← w.session_built]
  exact hp

theorem candid_behind (names : List String) :
    (w.behind names .empty).sink.Candid := by
  rw [← w.session_built]
  exact Progress.units_keep (P := fun s => s.sink.Candid)
    (fun name s => (w.moves_unit name s).candid) names
    Construction.handedOut_new Sink.candid_empty

theorem closed_behind (names : List String) :
    (w.behind names .empty).Closed :=
  w.session_built names ▸ w.closed_built names

theorem calm_link (names : List String) :
    (w.behind names .empty).sink.Calm (w.behind names .empty).link.sink := by
  refine Linking.calm_ofRequests ?_ (closed_behind names).requests _
  rw [← w.session_built]
  exact (w.forest_built names).acyclic_heldBy

/-- The session has a fatal problem if one of its units has one in the end. -/
theorem hasFatal_behind {more : List String} (hd : (names ++ more).Nodup) :
    (w.behind names .empty).sink.hasFatal = names.any fun source =>
      (w.behind (names ++ more) .empty).link.sink.hasFatalIn source := by
  have hfirst := (List.nodup_append.1 hd).1
  have hsame : ∀ source ∈ names,
      (w.behind (names ++ more) .empty).link.sink.hasFatalIn source =
        (w.behind names .empty).sink.hasFatalIn source := by
    intro source hm
    rw [(w.calm_link (names ++ more)).units]
    unfold Sink.hasFatalIn
    rw [problems_behind hd, problems_behind hfirst, if_pos hm,
      if_pos (List.mem_append_left _ hm)]
  rw [Bool.eq_iff_iff, Sink.hasFatal_iff, List.any_eq_true]
  constructor
  · rintro ⟨source, hs⟩
    have hm : source ∈ names := by
      by_contra hn
      unfold Sink.hasFatalIn at hs
      rw [problems_behind hfirst, if_neg hn] at hs
      cases hs
    exact ⟨source, hm, (hsame source hm).trans hs⟩
  · rintro ⟨source, hm, hs⟩
    exact ⟨source, (hsame source hm).symm.trans hs⟩

/-- The links of the elements of a unit are links of this unit. -/
theorem source_of_scope (hs : s.Closed) {q : LinkRequest}
    (hq : q ∈ (w.behind names (w.unit name s).2).requests)
    (hle : s.graph.size ≤ q.scope.index)
    (hlt : q.scope.index < (w.unit name s).2.graph.size) : q.source = name := by
  obtain ⟨more, hm, hmore⟩ := (w.spares_behind names (w.unit name s).2).requests
  rw [hm] at hq
  rcases List.mem_append.1 hq with hq | hq
  · rw [w.session_unit] at hq
    rcases List.mem_append.1 hq with hq | hq
    · have := hs.requests q hq
      omega
    · obtain ⟨q', hq', rfl⟩ := List.mem_map.1 hq
      have hsource : q'.source = name := source_of_mem_share hq'
      exact hsource
  · rcases hmore q hq with hb | hb
    · cases hb
    · omega

/-- A unit without errors in the end is shown in the graph, with its links. -/
theorem shows_behind {c : Catalog} (hw : w.metamodel = c.metamodel)
    {first last : List String} (hd : (first ++ name :: last).Nodup)
    (he : (w.behind (first ++ name :: last) .empty).link.sink.hasErrorsIn name =
      false) :
    ∃ text ids later, w.fetch name = some text ∧
      (w.behind (first ++ name :: last) .empty).link.graph.view.ShowsText c text
        ((w.endings name (w.behind first .empty)).map (·.object)) ids ∧
      (w.behind (first ++ name :: last) .empty).link.graph.elements =
        (w.behind first .empty).graph.elements ++ ids ++ later := by
  have hproblems := problems_behind (w := w) hd name
  have hclosed := closed_behind (w := w) (first ++ name :: last)
  have hbehind : w.behind (first ++ name :: last) .empty =
      w.behind last (w.unit name (w.behind first .empty)).2 := by
    unfold behind
    rw [List.foldl_append]
    rfl
  rw [if_pos (List.mem_append_right _ List.mem_cons_self)] at hproblems
  generalize w.behind (first ++ name :: last) .empty = s at *
  obtain ⟨hbefore, hmade⟩ :=
    Linking.ok_of_hasErrorsIn (l := ⟨s.graph, s.sink, 0⟩) he
  have hshare : (w.share name).sink.hasErrorsIn name = false := by
    unfold Sink.hasErrorsIn at hbefore ⊢
    rwa [← hproblems]
  have hfresh : (w.behind first .empty).sink.problems name = [] := by
    obtain ⟨hfirst, -, hapart⟩ := List.nodup_append.1 hd
    rw [problems_behind hfirst, if_neg]
    exact fun hm => hapart name hm name List.mem_cons_self rfl
  obtain ⟨text, ids, hf, hshown, helements⟩ := shows_unit (c := c) hw
    (closed_behind first) (candid_behind first) hfresh hshare
  have hspares := w.spares_behind last (w.unit name (w.behind first .empty)).2
  rw [← hbehind] at hspares
  have hlinks : s.graph.SameButReferences s.link.graph :=
    Linking.sameButReferences_ofRequests s.requests s.graph s.sink
  obtain ⟨later, hlater⟩ := hspares.graph.elements
  have hids : ∀ id ∈ ids,
      id ∈ (w.unit name (w.behind first .empty)).2.graph.elements := by
    intro id hid
    rw [helements]
    exact List.mem_append_right _ hid
  refine ⟨text, ids, later, hf, ?_, ?_⟩
  · refine (hshown.transport fun id hid =>
      hspares.agrees (hids id hid) List.not_mem_nil).transport fun id hid => ?_
    refine Session.agrees_link hclosed.unlinked fun o ho hscope => ?_
    -- A link of an element of the unit is told among the problems of the unit.
    have hq : o.request ∈ s.requests := (Linking.mem_outcomes ho).1
    rw [hbehind] at hq
    refine hmade o ho (source_of_scope (closed_behind first) hq ?_ ?_)
    · rw [hscope]
      have hu : (w.behind first .empty).Spares []
          (w.unit name (w.behind first .empty)).2 := spares_behind [name] _
      exact hu.graph.le_of_elements helements hid
    · rw [hscope]
      obtain ⟨type, ht⟩ := Graph.mem_elements.1 (hids id hid)
      exact Graph.lt_size_of_type? ht
  · rw [Graph.elements_of_type? hlinks.size hlinks.type?, hlater, helements]

end Workspace

/-! ### Compilations -/

/-- **What an authoritative result promises.** Its unit has a text, and every
declaration of that is shown in the compiled graph by an element of its own, behind
the elements of the units before. The roots are those of the declarations at the
top level, in order; but under the scope of the session a unit behind one with a
fatal problem has no roots at all. -/
theorem compile_authoritative (c : Catalog) (config : Config)
    (entries : List String) (sources : Sources) {r : Compilation}
    (hr : compile c.metamodel config entries sources = .ok r) :
    let w := config.workspace c.metamodel (c.metamodel.supply sources).fetch
    r.graph.elements.Nodup ∧
    ∀ before unit after, r.results = before ++ unit :: after →
      unit.isAuthoritative = true →
      ∃ text objects ids later, w.fetch unit.source = some text ∧
        r.graph.view.ShowsText c text objects ids ∧
        r.graph.elements =
          (w.built (before.map (·.source))).graph.elements ++ ids ++ later ∧
        unit.roots =
          if config.fatalScope = .session ∧ before.any (·.hasFatal) = true then
            []
          else objects := by
  intro w
  obtain ⟨layers, hl, hg, hx⟩ := compile_rolls hr
  obtain ⟨layers', hl', hd, -⟩ := compile_layers hr
  cases hl.unique hl'
  refine ⟨Graph.nodup_elements _, fun before unit after h hsound => ?_⟩
  rw [hx] at h
  obtain ⟨rolled, others, hroll, rfl, ho⟩ := List.map_eq_append_iff.1 h
  obtain ⟨⟨name, endings⟩, rest, rfl, rfl, rfl⟩ := List.map_eq_cons_iff.1 ho
  have hnames : layers.flatten =
      rolled.map Prod.fst ++ name :: rest.map Prod.fst := by
    rw [← w.map_fst_roll layers.flatten .empty, hroll, List.map_append,
      List.map_cons]
  have hendings : endings =
      w.endings name (w.behind (rolled.map Prod.fst) .empty) :=
    w.endings_of_roll hroll
  rw [hnames] at hd hg hsound ⊢
  have herrors : (config.result name (config.fatalScope.kept endings)
      ((w.behind (rolled.map Prod.fst ++ name :: rest.map Prod.fst)
        .empty).link.sink.problems name)).hasErrors = false :=
    Bool.not_eq_true' _ ▸ hsound
  obtain ⟨text, ids, later, hf, hshown, helements⟩ :=
    Workspace.shows_behind (c := c) rfl hd herrors
  rw [← hendings, ← hg] at hshown
  rw [← hg] at helements
  refine ⟨text, _, ids, later, hf, hshown, ?_, ?_⟩
  · rw [helements, ← w.session_built, List.map_map]
    rfl
  · refine (UnitResult.roots_of_clean herrors).trans ?_
    rw [hendings, w.kept_endings, Workspace.hasFatal_behind hd, List.any_map,
      List.any_map]
    rfl

/-- Under the scope of the unit, a unit behind one with a fatal problem has the
roots that it declares. -/
theorem compile_authoritative_second :
    let text := "language shapes shape c shape d"
    let sources := ((NameMap.empty.insert "one"
      "language shapes circle b").insert "two" text).sources
    let config : Config := { Config.default with fatalScope := .unit }
    ∃ c r ids, Schema.shapes.catalog = .ok c ∧
      compile c.metamodel config ["one", "two"] sources = .ok r ∧
      r.results.map (fun unit => (unit.source, unit.isAuthoritative)) =
        [("one", false), ("two", true)] ∧
      r.results.map (·.roots) = [[], [⟨0⟩, ⟨1⟩]] ∧
      r.graph.view.ShowsText c text [⟨0⟩, ⟨1⟩] ids := by
  intro text sources config
  obtain ⟨c, hc, htext, hunits, hroots⟩ :
      ∃ c, Schema.shapes.catalog = .ok c ∧
      let r := compileUnits c.metamodel config ["one", "two"] sources
      (c.metamodel.supply sources).fetch "two" = some text ∧
      r.results.map (fun unit => (unit.source, unit.isAuthoritative)) =
        [("one", false), ("two", true)] ∧
      r.results.map (·.roots) = [[], [⟨0⟩, ⟨1⟩]] :=
    exists_ok_of_any (by decide +kernel)
  obtain ⟨first, rest, hresults, hfirst, hrest⟩ := List.map_eq_cons_iff.1 hunits
  obtain ⟨second, rfl, hsecond⟩ := List.map_eq_singleton_iff.1 hrest
  obtain ⟨hname, hsound⟩ := Prod.mk.inj hsecond
  obtain ⟨found, objects, ids, later, hf, hshown, -, hx⟩ :=
    (compile_authoritative c config ["one", "two"] sources rfl).2
      [first] second [] hresults hsound
  rw [hname] at hf
  cases hf.symm.trans htext
  have hkept : second.roots = objects := hx.trans (if_neg fun h => nomatch h.1)
  have hobjects : second.roots = [⟨0⟩, ⟨1⟩] := by
    rw [hresults] at hroots
    exact (List.cons.inj (List.cons.inj hroots).2).1
  rw [← hkept, hobjects] at hshown
  exact ⟨c, _, ids, hc, rfl, hunits, hroots, hshown⟩

/-- Under the scope of the session, a result without errors need not have the roots
that its unit declares: the fatal problem of the first unit has shut the gate for
the second one. -/
theorem compile_gated_roots :
    let text := "language shapes shape c"
    let sources := ((NameMap.empty.insert "one"
      "language shapes circle b").insert "two" text).sources
    ∃ c r unit, Schema.shapes.catalog = .ok c ∧
      compile c.metamodel .default ["one", "two"] sources = .ok r ∧
      unit ∈ r.results ∧ unit.source = "two" ∧
      unit.isAuthoritative = true ∧
      (c.metamodel.supply sources).fetch "two" = some text ∧
      unit.roots = [] ∧
      ¬ ∃ ids, r.graph.view.ShowsText c text unit.roots ids := by
  intro text sources
  obtain ⟨c, hc, htext, hunits⟩ : ∃ c, Schema.shapes.catalog = .ok c ∧
      (c.metamodel.supply sources).fetch "two" = some text ∧
      (compileUnits c.metamodel .default ["one", "two"] sources).results.map
        (fun unit => (unit.source, unit.isAuthoritative, unit.roots)) =
          [("one", false, []), ("two", true, [])] :=
    exists_ok_of_any (by decide +kernel)
  have hdeclared : ((SourceTree.ofSource text).toOption.map fun tree =>
      tree.declarations.length) = some 1 := by decide +kernel
  obtain ⟨first, rest, hresults, -, hrest⟩ := List.map_eq_cons_iff.1 hunits
  obtain ⟨second, rfl, hsecond⟩ := List.map_eq_singleton_iff.1 hrest
  simp only [Prod.mk.injEq] at hsecond
  obtain ⟨hname, hsound, hroots⟩ := hsecond
  refine ⟨c, _, second, hc, rfl, ?_, hname, hsound, htext, hroots, ?_⟩
  · rw [hresults]
    exact List.mem_cons_of_mem _ List.mem_cons_self
  · rintro ⟨ids, tree, ht, hshown⟩
    rw [hroots] at hshown
    rw [ht] at hdeclared
    have hlength : tree.declarations.length = 1 := Option.some.inj hdeclared
    -- No element shows a text with a declaration.
    generalize tree.declarations = declarations at hshown hlength
    cases hshown
    cases hlength

end ModelText
