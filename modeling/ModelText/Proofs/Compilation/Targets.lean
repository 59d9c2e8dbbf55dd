import ModelText.Proofs.Compilation.Ownership
import ModelText.Proofs.Construction.Closed
import ModelText.Proofs.Construction.Outcomes
import ModelText.Proofs.Graph.Extension

/-!
# What late links lead to

Links wait until all units are built, so more is there to be found than when they
were written. But units only add to the graph, behind its objects, and a name is
looked for in new places only where it was not found in the old ones. A path that
led to an object when its unit was done leads to this object when the link is
made, whatever units came in between and whatever their elements are called.
-/

namespace ModelText

/-- The state in which units leave the session and the builder, built one behind
the other. -/
def Workspace.built (w : Workspace) (names : List String) : Construction :=
  (names.foldl (Progress.addUnit w) .start).construction

namespace Progress

variable {w : Workspace} {p : Progress}

/-- Units leave the objects and the roots that are there as they are. -/
theorem extends_addUnits (names : List String) (h : p.construction.HandedOut) :
    p.construction.graph.Extends
      (names.foldl (addUnit w) p).construction.graph := by
  refine units_keep (P := fun s => p.construction.graph.Extends s.graph)
    (fun name s hs => ?_) names h (.refl _)
  rw [w.session_unit]
  exact hs.trans (.append s.graph (w.share name).graph)

/-- A link that waits was there before, or one of the units has it. -/
theorem mem_requests_addUnits {names : List String}
    (h : p.construction.HandedOut) {q : LinkRequest}
    (hq : q ∈ (names.foldl (addUnit w) p).construction.requests) :
    q ∈ p.construction.requests ∨ ∃ before after,
      names = before ++ q.source :: after ∧
      q ∈ ((before ++ [q.source]).foldl (addUnit w) p).construction.requests := by
  induction names generalizing p with
  | nil => exact .inl hq
  | cons name rest ih =>
    have ha := addUnit_added w h name
    rcases ih ha.handedOut hq with hm | ⟨before, after, rfl, hm⟩
    · rw [ha.requests] at hm
      rcases List.mem_append.1 hm with hm | hm
      · exact .inl hm
      · obtain ⟨q', hq', rfl⟩ := List.mem_map.1 hm
        -- The link is one of this unit.
        have hs : q'.source = name := Workspace.source_of_mem_share hq'
        change _ ∨ ∃ before after, _ = before ++ q'.source :: after ∧
          _ ∈ ((before ++ [q'.source]).foldl _ p).construction.requests
        refine .inr ⟨[], rest, by rw [hs]; rfl, ?_⟩
        rw [hs]
        change _ ∈ (p.addUnit w name).construction.requests
        rw [ha.requests]
        exact List.mem_append_right _ hm
    · exact .inr ⟨name :: before, after, rfl, hm⟩

end Progress

namespace Workspace

variable (w : Workspace)

theorem handedOut_built (names : List String) :
    (w.built names).HandedOut :=
  (Progress.handedOut_addUnits (p := .start) Construction.handedOut_new
    names).1

theorem forest_built (names : List String) : (w.built names).graph.Forest :=
  Progress.units_keep (P := fun s => s.graph.Forest)
    (fun name _ => w.forest_unit name) names Construction.handedOut_new
    Graph.Forest.empty

theorem closed_built (names : List String) :
    (w.built names).toSession.Closed :=
  Progress.units_keep (P := Session.Closed)
    (fun name s => (w.moves_unit name s).closed) names
    Construction.handedOut_new Session.closed_empty

theorem extends_built (names more : List String) :
    (w.built names).graph.Extends (w.built (names ++ more)).graph := by
  unfold built
  rw [List.foldl_append]
  exact Progress.extends_addUnits more (w.handedOut_built names)

variable {w}

/-- What a path of a link leads to when its unit is done, it leads to behind any
further units, and while links are made. -/
theorem resolve?_built {names : List String} {q : LinkRequest}
    (hq : q ∈ (w.built names).requests) {target : ObjectId}
    (ht : (w.built names).graph.resolve? q.scope q.path = some target)
    (more : List String) {h : Graph}
    (hs : (w.built (names ++ more)).graph.SameButReferences h) :
    h.resolve? q.scope q.path = some target := by
  rw [hs.resolve?]
  exact (w.forest_built names).resolve?_extends (w.extends_built names more)
    (w.forest_built _).acyclic_heldBy ((w.closed_built names).requests q hq) ht

end Workspace

/-- A link that waits behind all units is one of its own unit. -/
theorem Workspace.exists_result_of_request {w : Workspace}
    {results : List UnitResult} {q : LinkRequest}
    (hq : q ∈ (w.built (results.map (·.source))).requests) :
    ∃ before unit after, results = before ++ unit :: after ∧
      unit.source = q.source ∧
      q ∈ (w.built ((before ++ [unit]).map (·.source))).requests := by
  rcases Progress.mem_requests_addUnits Construction.handedOut_new hq with
    hm | ⟨first, last, hsplit, hown⟩
  · cases hm
  obtain ⟨before, others, rfl, rfl, ho⟩ := List.map_eq_append_iff.1 hsplit
  obtain ⟨unit, after, rfl, hsource, rfl⟩ := List.map_eq_cons_iff.1 ho
  refine ⟨before, unit, after, rfl, hsource, ?_⟩
  rw [List.map_append, List.map_singleton, hsource]
  exact hown

/-- What comes of a link in the pass, if its path leads to an object when it is
its turn: its reference has this object in the end, or the graph refuses this
object. -/
theorem Linking.outcome_of_resolve? {g : Graph} {sink : Sink}
    {earlier later : List LinkRequest} {q : LinkRequest} {target : ObjectId}
    (ht : (ofRequests earlier g sink).graph.resolve? q.scope q.path =
      some target) :
    let turn := (ofRequests earlier g sink).graph
    let all := earlier ++ q :: later
    (q.target turn = .ok target ∧
        target ∈ (ofRequests all g sink).graph.targets q.scope
          q.reference.name) ∨
      ∃ e, turn.link q.reference q.scope target = .error e ∧
        q.target turn = .error (.refused e .link) := by
  intro turn all
  rcases LinkRequest.target_of_resolve? ht with hq | hq
  · refine .inl ⟨hq, ?_⟩
    have hentry : ⟨q, .ok target⟩ ∈ LinkRequest.outcomes g all := by
      rw [← hq]
      exact (outcomes_append earlier (q :: later) ⟨g, sink, 0⟩) ▸
        List.mem_append_right _ List.mem_cons_self
    rw [targets_ofRequests]
    exact List.mem_append_right _
      (List.mem_filterMap.2 ⟨_, hentry, if_pos rfl⟩)
  · exact .inr hq

/-- The compiled graph is that behind the pass over the links that wait behind
all units. -/
theorem compile_links {m : Metamodel} {config : Config} {entries : List String}
    {sources : Sources} {r : Compilation}
    (hr : compile m config entries sources = .ok r) :
    let w := config.workspace m (m.supply sources).fetch
    let all := w.built (r.results.map (·.source))
    r.graph = (Linking.ofRequests all.requests all.graph all.sink).graph := by
  intro w all
  obtain ⟨layers, -, -, -, hp, hg, hx⟩ := compile_layers hr
  have hnames : r.results.map (·.source) = layers.flatten := by
    rw [← hp, hx, List.map_map]
    rfl
  have hall : w.built layers.flatten = all := congrArg w.built hnames.symm
  rw [hg, ← hall]
  rfl

/-- **Later units do not change what a name means.** Every link that is made in
the end waits since its unit was built, and has its place in what comes of the
links. If its path led to an object right then, it leads to the same object
behind each further unit, when the turn of the link comes, and in the compiled
graph. So the pass gives this object to the reference, or finds that the graph
refuses this object. -/
theorem compile_keeps_targets (m : Metamodel) (config : Config)
    (entries : List String) (sources : Sources) {r : Compilation}
    (hr : compile m config entries sources = .ok r) :
    let w := config.workspace m (m.supply sources).fetch
    let all := w.built (r.results.map (·.source))
    r.graph = (Linking.ofRequests all.requests all.graph all.sink).graph ∧
    ∀ earlier q later, all.requests = earlier ++ q :: later →
      let turn := (Linking.ofRequests earlier all.graph all.sink).graph
      (LinkRequest.outcomes all.graph all.requests =
        LinkRequest.outcomes all.graph earlier ++
          ⟨q, q.target turn⟩ :: LinkRequest.outcomes (q.settled turn) later) ∧
      ∃ before unit after, r.results = before ++ unit :: after ∧
        unit.source = q.source ∧
        let own := w.built ((before ++ [unit]).map (·.source))
        q ∈ own.requests ∧
        ∀ target, own.graph.resolve? q.scope q.path = some target →
          (∀ more rest, after = more ++ rest →
            (w.built ((before ++ unit :: more).map (·.source))).graph.resolve?
              q.scope q.path = some target) ∧
          turn.resolve? q.scope q.path = some target ∧
          r.graph.resolve? q.scope q.path = some target ∧
          ((q.target turn = .ok target ∧
              target ∈ r.graph.targets q.scope q.reference.name) ∨
            ∃ e, turn.link q.reference q.scope target = .error e ∧
              q.target turn = .error (.refused e .link)) := by
  intro w all
  have hgraph := compile_links hr
  refine ⟨hgraph, fun earlier q later hq => ?_⟩
  intro turn
  have hentry := Linking.outcomes_append earlier (q :: later)
    ⟨all.graph, all.sink, 0⟩
  rw [← hq] at hentry
  refine ⟨hentry, ?_⟩
  have hmem : q ∈ all.requests := by
    rw [hq]
    exact List.mem_append_right _ List.mem_cons_self
  obtain ⟨before, unit, after, hresults, hsource, hown⟩ :=
    Workspace.exists_result_of_request hmem
  refine ⟨before, unit, after, hresults, hsource, hown, fun target ht => ?_⟩
  have hlater : ∀ more h, (w.built ((before ++ unit :: more).map
      (·.source))).graph.SameButReferences h →
        h.resolve? q.scope q.path = some target := by
    intro more h hs
    refine Workspace.resolve?_built hown ht (more.map (·.source)) ?_
    rwa [← List.map_append, List.append_assoc, List.singleton_append]
  have hpass : ∀ requests, (Linking.ofRequests requests all.graph
      all.sink).graph.resolve? q.scope q.path = some target := by
    refine fun requests => hlater after _ ?_
    rw [← hresults]
    exact Linking.sameButReferences_ofRequests requests all.graph all.sink
  refine ⟨fun more _ _ => hlater more _ (.refl _), hpass earlier, ?_, ?_⟩
  · rw [hgraph]
    exact hpass all.requests
  · rw [hgraph, hq]
    exact Linking.outcome_of_resolve? (hpass earlier)

/-- When the link of the first unit is made, there are two elements of the name.
It is made to the one that was there when the unit was done. -/
theorem compile_keeps_targets_main :
    let sources := ((NameMap.empty.insert "main"
      "language shapes import other shape a \x7b next: b \x7d shape b").insert
        "other" "language shapes shape b").sources
    ∃ c r, Schema.shapes.catalog = .ok c ∧
      compile c.metamodel .default ["main"] sources = .ok r ∧
      r.graph.roots.map r.graph.name? = [some "a", some "b", some "b"] ∧
      r.graph.resolve? ⟨0⟩ ["b"] = some ⟨1⟩ ∧
      r.graph.targets ⟨0⟩ "next" = [⟨1⟩] := by
  intro sources
  obtain ⟨c, hc, hnames, hwaiting, hfirst, hroots, htargets⟩ :
      ∃ c, Schema.shapes.catalog = .ok c ∧
      let w := Config.default.workspace c.metamodel
        (c.metamodel.supply sources).fetch
      let r := compileUnits c.metamodel .default ["main"] sources
      r.results.map (·.source) = ["main", "other"] ∧
      ((w.built ["main", "other"]).requests.map fun q =>
        (q.source, q.scope, q.path)) = [("main", ⟨0⟩, ["b"])] ∧
      (w.built ["main"]).graph.resolve? ⟨0⟩ ["b"] = some ⟨1⟩ ∧
      r.graph.roots.map r.graph.name? = [some "a", some "b", some "b"] ∧
      r.graph.targets ⟨0⟩ "next" = [⟨1⟩] :=
    exists_ok_of_any (by decide +kernel)
  obtain ⟨-, hkeeps⟩ :=
    compile_keeps_targets c.metamodel .default ["main"] sources rfl
  dsimp only at hkeeps
  rw [hnames] at hkeeps
  obtain ⟨q, hq, hdata⟩ := List.map_eq_singleton_iff.1 hwaiting
  obtain ⟨-, before, unit, after, hresults, hsource, -, hsame⟩ :=
    hkeeps [] q [] hq
  simp only [Prod.mk.injEq] at hdata
  obtain ⟨hmain, hscope, hpath⟩ := hdata
  rw [hmain] at hsource
  rw [hscope, hpath] at hsame
  -- The link is one of the first unit.
  have hbefore : before = [] := by
    rw [hresults] at hnames
    cases before with
    | nil => rfl
    | cons other rest =>
      rw [List.cons_append, List.map_cons] at hnames
      have hm : unit.source ∈ (rest ++ unit :: after).map (·.source) :=
        List.mem_map.2 ⟨unit, by simp, rfl⟩
      rw [(List.cons.inj hnames).2, hsource] at hm
      exact absurd hm (by decide)
  subst hbefore
  rw [List.nil_append, List.map_singleton, hsource] at hsame
  exact ⟨c, _, hc, rfl, hroots, (hsame _ hfirst).2.2.1, htargets⟩

end ModelText
