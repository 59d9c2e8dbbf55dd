import ModelText.Proofs.Compilation.Faithful
import ModelText.Proofs.Compilation.Roots
import ModelText.Proofs.Construction.Outcomes

/-!
# What the graph shows of one unit

A unit without problems of its own loses nothing, whatever is wrong with other
units. That it was built behind them makes no difference to what it creates, so
it can be looked at in a session with their objects but without their problems.
Units behind it leave its elements alone, and so do links, which bring these
elements their targets when none of the links of the unit fails.
-/

namespace ModelText

/-! ### Units behind it -/

namespace Graph

theorem elements_of_type? {g h : Graph} (hs : h.size = g.size)
    (ht : ∀ id, h.type? id = g.type? id) : h.elements = g.elements := by
  unfold elements ids
  simp only [hs, ht]

/-- Elements that are added come behind those that are there. -/
theorem Spares.elements {g h : Graph} {but : List ObjectId}
    (hs : Spares but g h) : ∃ more, h.elements = g.elements ++ more := by
  have hold : ∀ id ∈ g.ids, h.type? id = g.type? id := by
    intro id hi
    obtain ⟨n, hn, rfl⟩ := List.mem_map.1 hi
    obtain ⟨o, ho⟩ := object?_eq_some_of_lt (List.mem_range.1 hn)
    rw [type?_of_object? ho, hs.type? (type?_of_object? ho)]
  obtain ⟨added, ha⟩ := Nat.exists_eq_add_of_le hs.size_le
  unfold Graph.elements
  rw [show h.ids = g.ids ++
    ((List.range added).map (g.size + ·)).map ObjectId.mk by
      unfold ids
      rw [ha, List.range_add, List.map_append], List.filter_append]
  refine ⟨_, congrArg (· ++ _) (List.filter_congr fun id hi => ?_)⟩
  rw [hold id hi]

end Graph

namespace Session

/-- What a unit did to a session of its own spares the session before it. -/
theorem spares_append (base : Session) (source : String) (s : Session) :
    base.Spares [] (base.append source s) where
  graph id o ho :=
    ⟨o, (Graph.object?_append_of_lt _ _ (Graph.lt_size_of_object? ho)).trans ho,
      rfl, rfl, fun _ => rfl⟩
  requests := by
    refine ⟨_, rfl, fun r hr => .inr ?_⟩
    obtain ⟨r', -, rfl⟩ := List.mem_map.1 hr
    exact Nat.le_add_right _ _

/-- The session with the objects of its units, but without their problems. -/
def silenced (s : Session) : Session := { s with sink := .empty }

end Session

namespace Workspace

/-- The workspace in which units are gated by problems of their own only. -/
def apart (w : Workspace) : Workspace := w.inScope .unit

variable {w : Workspace} {s : Session}

theorem spares_behind (names : List String) (s : Session) :
    s.Spares [] (w.behind names s) := by
  induction names generalizing s with
  | nil => exact .refl [] s
  | cons name rest ih =>
    have hu : s.Spares [] (w.unit name s).2 := by
      rw [w.session_unit]
      exact s.spares_append name _
    exact hu.trans (ih _)

/-! ### Units before it -/

section

variable (w : Workspace) (name : String) (s : Session)

theorem unit_apart : (w.apart.unit name s.silenced).2 =
    s.silenced.append name (w.share name) := by
  rw [w.apart.session_unit]
  exact congrArg _ (w.session_inScope name .unit .empty)

/-- The problems of other units have no say in what a unit creates. -/
theorem view_unit_apart :
    (w.apart.unit name s.silenced).2.view = (w.unit name s).2.view := by
  rw [unit_apart, w.session_unit]
  rfl

variable {w name s}

theorem clean_unit_apart
    (he : (w.share name).sink.hasErrorsIn name = false) :
    (w.apart.unit name s.silenced).2.Clean := by
  apply Session.clean_of_remembers
  · exact (w.apart.moves_unit name s.silenced).remembers Sink.remembers_empty
  · intro source
    rw [unit_apart]
    unfold Sink.hasErrorsIn
    change ((Sink.empty.append name (w.share name).sink).problems source).any
      _ = false
    rw [Sink.problems_append]
    split
    · exact he
    · rfl

theorem roots_unit_apart (hc : s.sink.Candid) (hn : s.sink.problems name = []) :
    (w.apart.unit name s.silenced).1.roots =
      (w.endings name s).map (·.object) := by
  have hq : s.sink.hasFatalIn name = false := by
    unfold Sink.hasFatalIn
    rw [hn]
    rfl
  unfold apart
  rw [(w.inScope .unit).roots_unit name s.silenced rfl rfl,
    ← w.endings_inScope name .unit s]
  exact ((w.inScope .unit).roots_unit name s rfl hq).symm.trans
    ((w.inScope .unit).roots_eq_kept name hc hq)

end

/-- A unit whose share has no errors is shown by the elements at its top level
that come to their ends. -/
theorem shows_unit {c : Catalog} (hw : w.metamodel = c.metamodel)
    (hs : s.Closed) (hc : s.sink.Candid) {name : String}
    (hn : s.sink.problems name = [])
    (he : (w.share name).sink.hasErrorsIn name = false) :
    ∃ text ids, w.fetch name = some text ∧
      (w.unit name s).2.view.ShowsText c text
        ((w.endings name s).map (·.object)) ids ∧
      (w.unit name s).2.graph.elements = s.graph.elements ++ ids := by
  cases hf : w.fetch name with
  | none =>
    rw [share_of_missing hf, Session.report, Sink.hasErrorsIn_report] at he
    simp [Problem.missingUnit, Problem.ofUnit, Problem.severity,
      Severity.isError] at he
  | some text =>
    have hclean := clean_unit_apart (s := s) he
    have hroots := roots_unit_apart (w := w) hc hn
    have hview := w.view_unit_apart name s
    have hgraph : (w.apart.unit name s.silenced).2.graph =
        (w.unit name s).2.graph := congrArg View.graph hview
    have hunit : w.apart.unit name s.silenced =
        s.silenced.walkUnit (w.apart.context name text) := by
      unfold unit
      rw [show w.apart.fetch name = some text from hf]
    rw [hunit] at hclean hroots hview hgraph
    have hs' : s.silenced.Closed := ⟨hs.graph, hs.unlinked, hs.requests⟩
    obtain ⟨-, ids, hshown, helements⟩ :=
      Session.shows_walkUnit (c := c) hw hs' hclean
    rw [hroots, hview] at hshown
    rw [hgraph] at helements
    exact ⟨text, ids, rfl, hshown, helements⟩

end Workspace

/-! ### Links -/

namespace LinkRequest

/-- If all links of a reference are made, they lead to its targets, in order. -/
theorem forall₂_outcomes (requests : List LinkRequest) {g : Graph}
    {k : ObjectId × String}
    (hk : ∀ o ∈ outcomes g requests, o.request.key = k →
      ∃ target, o.result = .ok target) :
    List.Forall₂ (fun path target => g.resolve? k.1 path = some target)
      (paths requests k.1 k.2)
      ((outcomes g requests).filterMap (Linking.Outcome.target? k)) := by
  induction requests generalizing g with
  | nil => exact .nil
  | cons r rest ih =>
    have hrest := ih (g := r.settled g) fun o ho =>
      hk o (List.mem_cons_of_mem _ ho)
    simp only [(r.sameButReferences_settled g).resolve?] at hrest
    rw [outcomes, List.filterMap_cons]
    unfold paths at hrest ⊢
    by_cases hr : r.key = k
    · obtain ⟨target, ht⟩ := hk ⟨r, r.target g⟩ List.mem_cons_self hr
      have hfirst : Linking.Outcome.target? k ⟨r, r.target g⟩ = some target := by
        unfold Linking.Outcome.target?
        rw [if_pos hr, ht]
        rfl
      have hresolve := resolve?_of_target (r := r) ht
      subst hr
      rw [hfirst, List.filter_cons_of_pos (by simp [key]), List.map_cons]
      exact .cons hresolve hrest
    · have hfirst : Linking.Outcome.target? k ⟨r, r.target g⟩ = none :=
        if_neg hr
      rw [hfirst, List.filter_cons_of_neg]
      · exact hrest
      · simpa [key, Prod.ext_iff] using hr

end LinkRequest

namespace Linking

/-- If no error of a unit is told, its links were made. -/
theorem ok_of_hasErrorsIn {requests : List LinkRequest} {l : Linking}
    {source : String}
    (h : (requests.foldl add l).sink.hasErrorsIn source = false) :
    l.sink.hasErrorsIn source = false ∧
      ∀ o ∈ LinkRequest.outcomes l.graph requests, o.request.source = source →
        ∃ target, o.result = .ok target := by
  induction requests generalizing l with
  | nil => exact ⟨h, fun _ ho => absurd ho List.not_mem_nil⟩
  | cons r rest ih =>
    obtain ⟨hl, hrest⟩ := ih h
    rw [graph_add] at hrest
    cases ht : r.target l.graph with
    | ok target =>
      rw [add_of_ok ht] at hl
      refine ⟨hl, fun o ho hs => ?_⟩
      rcases List.mem_cons.1 ho with rfl | ho
      · exact ⟨target, ht⟩
      · exact hrest o ho hs
    | error fault =>
      have ha : r.apply l.graph = .error fault := by
        rw [r.apply_eq, ht]
        rfl
      have he : (r.problem fault).severity.isError = true :=
        LinkRequest.isError_of_apply ha
      rw [add_of_error ht, Sink.hasErrorsIn_report, he, Bool.and_true,
        Bool.or_eq_false_iff, beq_eq_false_iff_ne] at hl
      refine ⟨hl.1, fun o ho hs => ?_⟩
      rcases List.mem_cons.1 ho with rfl | ho
      · exact absurd hs.symm hl.2
      · exact hrest o ho hs

end Linking

/-- If the links of an element are made, a view of those that wait is one of
where they lead. -/
theorem Session.agrees_link {s : Session} (hu : s.graph.Unlinked)
    {id : ObjectId}
    (hid : ∀ o ∈ LinkRequest.outcomes s.graph s.requests,
      o.request.scope = id → ∃ target, o.result = .ok target) :
    s.view.Agrees s.link.graph.view id := by
  have hs : s.graph.SameButReferences s.link.graph :=
    Linking.sameButReferences_ofRequests s.requests s.graph s.sink
  refine
    { type := fun type ht => (hs.type? id).trans ht
      name := hs.name? id
      held := fun feature => hs.childrenOf id feature
      linked := fun feature paths hp => ?_ }
  have htargets := Linking.targets_ofRequests s.requests s.graph s.sink id
    feature
  have hpaths : LinkRequest.paths s.requests id feature = paths := hp
  have hlead := LinkRequest.forall₂_outcomes s.requests (g := s.graph)
    (k := (id, feature)) fun o ho hk => hid o ho (congrArg Prod.fst hk)
  have hnone : s.graph.targets id feature = [] := by
    unfold Graph.targets
    cases ho : s.graph.object? id with
    | none => rfl
    | some o =>
      simp only [Option.map_some, Option.getD_some, Object.targets, hu id o ho]
      rfl
  rw [hnone, List.nil_append] at htargets
  rw [hpaths] at hlead
  change List.Forall₂ (fun path target => s.link.graph.resolve? id path =
    some target) paths (s.link.graph.targets id feature)
  simp only [hs.resolve?]
  exact htargets ▸ hlead

end ModelText
