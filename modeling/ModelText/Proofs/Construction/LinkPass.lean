import ModelText.Proofs.Construction.Outcomes
import ModelText.Proofs.Graph.Operations

/-!
# The account of the links

The pass over the links that wait takes each of them once. A link whose path
means an object that its reference may have brings the reference this target, at
the end of those that it has. Any other link is told as one problem, at the place
of the link, and nothing is changed. So the count of the links that were not made
is the number of the problems that were told, and objects come out as they went
in but for what they refer to.

What a path means is read in the graph with which the pass began: no link that is
made on the way has a say in it.
-/

namespace ModelText

namespace Sink

theorem size_report (s : Sink) (p : Problem) :
    (s.report p).size = s.size + 1 :=
  s.pending.length_flatten_update p.source p

theorem size_foldl_report (problems : List Problem) (s : Sink) :
    (problems.foldl report s).size = s.size + problems.length := by
  induction problems generalizing s with
  | nil => rfl
  | cons p rest ih =>
    rw [List.foldl_cons, ih, size_report, List.length_cons]
    omega

end Sink

namespace Graph

/-- The object is of a type that the reference takes. -/
def Suits (g : Graph) (reference : Feature) (target : ObjectId) : Prop :=
  ∃ type, g.type? target = some type ∧
    type.conformsTo reference.target = true

/-- Between objects that are there, a link is a matter of type and of room. -/
theorem mayLink_of_type? (g : Graph) (reference : Feature)
    {source target : ObjectId} {type : StructuredType}
    (hs : source.index < g.size) (ht : g.type? target = some type) :
    g.mayLink reference source target =
      if type.conformsTo reference.target = false then
        .error (.typeMismatch reference.name reference.target type.name)
      else if reference.many = false ∧
          g.targets source reference.name ≠ [] then
        .error (.alreadySet reference.name)
      else .ok () := by
  obtain ⟨object, ho⟩ := object?_eq_some_of_lt hs
  unfold mayLink targets
  rw [ht, ho]
  rfl

end Graph

namespace Linking

/-- Why a link is not made where its reference has some targets so far: the
fault and its kind. -/
inductive Obstacle (g : Graph) (r : LinkRequest) (targets : List ObjectId) :
    Fault → Category → Prop
  /-- The path leads nowhere. -/
  | unresolved : g.Resolves r.scope r.path none →
    Obstacle g r targets (.unresolved r.path) .unresolvedName
  /-- The path leads to an object of another type. -/
  | unfit {found : ObjectId} {type : StructuredType} :
    g.Resolves r.scope r.path (some found) → g.type? found = some type →
    type.conformsTo r.reference.target = false →
    Obstacle g r targets (.refused (.typeMismatch r.reference.name
      r.reference.target type.name) .link) .typeError
  /-- The reference takes one target and has one. -/
  | taken {found : ObjectId} : g.Resolves r.scope r.path (some found) →
    g.Suits r.reference found → r.reference.many = false → targets ≠ [] →
    Obstacle g r targets (.refused (.alreadySet r.reference.name) .link)
      .unspecified

/-- The link was made: the object that its path means is the last target of its
reference, and nothing else has changed. -/
structure Made (g : Graph) (r : LinkRequest) (l l' : Linking)
    (target : ObjectId) : Prop where
  resolves : g.Resolves r.scope r.path (some target)
  suits : g.Suits r.reference target
  room : r.reference.many = false →
    l.graph.targets r.scope r.reference.name = []
  objects : l.graph.SameButReferences l'.graph
  targets : l'.graph.targets r.scope r.reference.name =
    l.graph.targets r.scope r.reference.name ++ [target]
  others : ∀ id feature, (id, feature) ≠ (r.scope, r.reference.name) →
    l'.graph.targets id feature = l.graph.targets id feature
  sink : l'.sink = l.sink
  failed : l'.failed = l.failed

/-- The link was not made: its unit has one more problem, an error at the place
of the link, and the graph has not changed. -/
structure Refused (g : Graph) (r : LinkRequest) (l l' : Linking)
    (fault : Fault) (p : Problem) : Prop where
  obstacle : Obstacle g r (l.graph.targets r.scope r.reference.name) fault
    p.diagnostic.category
  diagnostic : p.diagnostic = Fault.diagnostic ⟨fault, r.span⟩
  severity : p.severity = .error
  source : p.source = r.source
  place : (p.line, p.column) = (r.position.line, r.position.column)
  graph : l'.graph = l.graph
  sink : l'.sink = l.sink.report p
  failed : l'.failed = l.failed + 1

theorem Obstacle.category {g : Graph} {r : LinkRequest}
    {targets : List ObjectId} {fault : Fault} {kind : Category}
    (h : Obstacle g r targets fault kind) :
    fault.category = kind ∧ fault.severity = .error := by
  cases h <;> exact ⟨rfl, rfl⟩

/-! ### One link -/

variable {g : Graph} {l : Linking} {r : LinkRequest}

theorem suits_of_target (hs : g.SameButReferences l.graph) {target : ObjectId}
    (ht : r.target l.graph = .ok target) :
    g.resolve? r.scope r.path = some target ∧ g.Suits r.reference target := by
  obtain ⟨hr, object, found, hc⟩ := LinkRequest.target_eq_ok ht
  rw [hs.resolve?] at hr
  refine ⟨hr, found.type, ?_, hc.conforms⟩
  rw [← hs.type?]
  unfold Graph.type?
  rw [hc.target, Option.map_some]

theorem made_of_target (ha : Graph.Acyclic g.HeldBy)
    (hs : g.SameButReferences l.graph) {target : ObjectId}
    (ht : r.target l.graph = .ok target) : Made g r l (l.add r) target := by
  obtain ⟨-, object, found, hc⟩ := LinkRequest.target_eq_ok ht
  obtain ⟨hr, hsuits⟩ := suits_of_target hs ht
  have hg := l.graph_add r
  have hsink : (l.add r).sink = l.sink := by rw [add_of_ok ht]
  have hfailed : (l.add r).failed = l.failed := by rw [add_of_ok ht]
  refine
    { resolves := (Graph.resolves_iff ha _ _ _).2 hr.symm
      suits := hsuits
      room := fun hm => ?_
      objects := ?_
      targets := ?_
      others := fun id feature hk => ?_
      sink := hsink
      failed := hfailed }
  · unfold Graph.targets
    rw [hc.source]
    exact hc.room hm
  · rw [hg]
    exact r.sameButReferences_settled l.graph
  · have hk : r.key = (r.scope, r.reference.name) := rfl
    rw [hg, r.targets_settled, Outcome.target?, if_pos hk, ht]
    rfl
  · rw [hg]
    exact r.targets_settled_of_ne l.graph (Ne.symm hk)

theorem obstacle_of_target (ha : Graph.Acyclic g.HeldBy)
    (hs : g.SameButReferences l.graph) (hi : r.scope.index < g.size)
    {fault : Fault} (ht : r.target l.graph = .error fault) :
    Obstacle g r (l.graph.targets r.scope r.reference.name) fault
      fault.category := by
  unfold LinkRequest.target at ht
  rw [hs.resolve?] at ht
  have hr := (Graph.resolves_iff ha r.scope r.path _).2 rfl
  cases hf : g.resolve? r.scope r.path with
  | none =>
    rw [hf] at ht hr
    cases ht
    exact .unresolved hr
  | some found =>
    rw [hf] at ht hr
    -- What a path leads to has a name, so it is there.
    obtain ⟨name, hn⟩ := Graph.name?_of_resolve? hf
    obtain ⟨o, ho, -⟩ := Option.bind_eq_some_iff.1 hn
    have hty : g.type? found = some o.type := congrArg (Option.map _) ho
    have hl : r.scope.index < l.graph.size := by rwa [hs.size]
    have hm := l.graph.mayLink_of_type? r.reference hl
      ((hs.type? found).trans hty)
    dsimp only at ht
    rw [hm] at ht
    by_cases hc : o.type.conformsTo r.reference.target = false
    · rw [if_pos hc] at ht
      cases ht
      exact .unfit hr hty hc
    · rw [if_neg hc] at ht
      by_cases hmany : r.reference.many = false ∧
          l.graph.targets r.scope r.reference.name ≠ []
      · rw [if_pos hmany] at ht
        cases ht
        exact .taken hr ⟨o.type, hty, by simpa using hc⟩ hmany.1 hmany.2
      · rw [if_neg hmany] at ht
        cases ht

/-- A link is made or not, and what comes of it says which. -/
theorem made_xor_refused (ha : Graph.Acyclic g.HeldBy)
    (hs : g.SameButReferences l.graph) (hi : r.scope.index < g.size) :
    Xor (∃ target, Made g r l (l.add r) target)
      (∃ fault p, Refused g r l (l.add r) fault p) := by
  have hn : ∀ {target fault p}, Made g r l (l.add r) target →
      Refused g r l (l.add r) fault p → False := by
    intro target fault p hm hr
    have := hm.failed.symm.trans hr.failed
    omega
  cases ht : r.target l.graph with
  | ok target =>
    have hm := made_of_target ha hs ht
    exact .inl ⟨⟨target, hm⟩, fun ⟨_, _, hr⟩ => hn hm hr⟩
  | error fault =>
    have ho := obstacle_of_target ha hs hi ht
    have hr : Refused g r l (l.add r) fault (r.problem fault) :=
      { obstacle := ho
        diagnostic := rfl
        severity := ho.category.2
        source := rfl
        place := rfl
        graph := by rw [add_of_error ht]
        sink := by rw [add_of_error ht]
        failed := by rw [add_of_error ht] }
    exact .inr ⟨⟨fault, _, hr⟩, fun ⟨_, hm⟩ => hn hm hr⟩

/-! ### All links -/

/-- Each link is settled in a graph that differs from the first one in
references only. -/
theorem mem_outcomes {requests : List LinkRequest} {o : Outcome}
    (ho : o ∈ LinkRequest.outcomes g requests) :
    o.request ∈ requests ∧ ∃ h, g.SameButReferences h ∧
      o.result = o.request.target h := by
  induction requests generalizing g with
  | nil => cases ho
  | cons r rest ih =>
    rcases List.mem_cons.1 ho with rfl | ho
    · exact ⟨List.mem_cons_self, g, .refl g, rfl⟩
    · obtain ⟨hm, h, hs, he⟩ := ih ho
      exact ⟨List.mem_cons_of_mem r hm, h,
        (r.sameButReferences_settled g).trans hs, he⟩

/-- What is told of a link is an error. -/
theorem severity_of_problem? (ha : Graph.Acyclic g.HeldBy)
    {requests : List LinkRequest}
    (hi : ∀ r ∈ requests, r.scope.index < g.size) {o : Outcome}
    (ho : o ∈ LinkRequest.outcomes g requests) {p : Problem}
    (hp : o.problem? = some p) : p.severity = .error := by
  obtain ⟨hm, h, hs, he⟩ := mem_outcomes ho
  obtain ⟨fault, ht, rfl⟩ := Outcome.problem?_eq_some.1 hp
  exact (obstacle_of_target (l := ⟨h, .empty, 0⟩) ha hs (hi _ hm)
    (he.symm.trans ht)).category.2

/-- What a reference gets is what the path of one of its links means. -/
theorem resolves_of_target? (ha : Graph.Acyclic g.HeldBy)
    {requests : List LinkRequest} {o : Outcome}
    (ho : o ∈ LinkRequest.outcomes g requests) {k : ObjectId × String}
    {target : ObjectId} (ht : o.target? k = some target) :
    o.request.key = k ∧
      g.Resolves o.request.scope o.request.path (some target) ∧
      g.Suits o.request.reference target := by
  obtain ⟨-, h, hs, he⟩ := mem_outcomes ho
  unfold Outcome.target? at ht
  by_cases hk : o.request.key = k
  · rw [if_pos hk, he] at ht
    cases hx : o.request.target h with
    | error fault =>
      rw [hx] at ht
      cases ht
    | ok found =>
      rw [hx] at ht
      cases ht
      obtain ⟨hr, hsuits⟩ := suits_of_target (l := ⟨h, .empty, 0⟩) hs hx
      exact ⟨hk, (Graph.resolves_iff ha _ _ _).2 hr.symm, hsuits⟩
  · rw [if_neg hk] at ht
    cases ht

/-- **Every link is accounted for.** Where every object has a chain of holders
that ends, the pass over links of objects that are there leaves the objects and
the roots alone but for references. Each link is either made or told as one
problem, never both; the links that were not made are counted; and what the pass
adds to a reference are objects that a path of one of its links means, of a type
that the reference takes. -/
theorem ofRequests_accounts {g : Graph} (sink : Sink)
    {requests : List LinkRequest} (hc : ∀ id, ∃ chain, g.Chain id chain)
    (hi : ∀ r ∈ requests, r.scope.index < g.size) :
    let linking := ofRequests requests g sink
    g.SameButReferences linking.graph ∧
    (∀ before r after, requests = before ++ r :: after →
      let l := ofRequests before g sink
      let l' := ofRequests (before ++ [r]) g sink
      Xor (∃ target, Made g r l l' target)
        (∃ fault p, Refused g r l l' fault p)) ∧
    linking.sink.size = sink.size + linking.failed ∧
    ∀ id feature, ∃ added,
      linking.graph.targets id feature = g.targets id feature ++ added ∧
      ∀ target ∈ added, ∃ r ∈ requests, r.scope = id ∧
        r.reference.name = feature ∧ g.Resolves id r.path (some target) ∧
        g.Suits r.reference target := by
  have ha := Graph.chains_iff_acyclic.1 hc
  have hsame : ∀ requests,
      g.SameButReferences (ofRequests requests g sink).graph :=
    fun requests => sameButReferences_ofRequests requests g sink
  refine ⟨hsame requests, ?_, ?_, fun id feature => ?_⟩
  · rintro before r after rfl
    have hr : r.scope.index < g.size := by
      refine hi r ?_
      exact List.mem_append_right before List.mem_cons_self
    have hadd : ofRequests (before ++ [r]) g sink =
        (ofRequests before g sink).add r := by
      unfold ofRequests
      rw [List.foldl_append]
      rfl
    dsimp only
    rw [hadd]
    exact made_xor_refused ha (hsame before) hr
  · rw [sink_ofRequests, failed_ofRequests, Sink.size_foldl_report]
  · refine ⟨_, targets_ofRequests requests g sink id feature, ?_⟩
    intro target ht
    obtain ⟨o, ho, ht⟩ := List.mem_filterMap.1 ht
    obtain ⟨hk, hr, hsuits⟩ := resolves_of_target? ha ho ht
    obtain ⟨hscope, hname⟩ := Prod.mk.inj hk
    exact ⟨o.request, (mem_outcomes ho).1, hscope, hname, hscope ▸ hr, hsuits⟩

/-- Four links of a reference that takes one panel: a name that is not there, a
label, a panel, and the panel again. Only the third one is made. -/
theorem ofRequests_accounts_screen :
    let panels : Feature := ⟨"panels", "Panel", false, true⟩
    let focus : Feature := ⟨"focus", "Panel", false, false⟩
    let screen : StructuredType :=
      .object ⟨"Screen", "UI", false, true, .empty, [], [panels], [focus]⟩
    let panel : StructuredType :=
      .object ⟨"Panel", "UI", false, true, .empty, [], [], []⟩
    let label : StructuredType :=
      .object ⟨"Label", "UI", false, true, .empty, [], [], []⟩
    let g := Graph.empty.run [.instantiate screen true,
      .instantiate panel false, .setName ⟨1⟩ "side", .addChild panels ⟨0⟩ ⟨1⟩,
      .instantiate label true, .setName ⟨2⟩ "caption"]
    let request (path : List String) : LinkRequest :=
      ⟨"main", ⟨4, 12⟩, { start := 40, stop := 45 }, ⟨0⟩, focus, path⟩
    let requests := [request ["nowhere"], request ["caption"],
      request ["side"], request ["side"]]
    let linking := ofRequests requests g .empty
    (∀ id, ∃ chain, g.Chain id chain) ∧
      (∀ r ∈ requests, r.scope.index < g.size) ∧
      linking.graph.targets ⟨0⟩ "focus" = [⟨1⟩] ∧ linking.failed = 3 ∧
      linking.sink.size = 3 ∧ g.SameButReferences linking.graph := by
  intro panels focus screen panel label g request requests linking
  have hsize : g.size = 3 := by decide +kernel
  have hheld : g.parent? ⟨1⟩ = some ⟨0⟩ := by decide +kernel
  have hroots : g.parent? ⟨0⟩ = none ∧ g.parent? ⟨2⟩ = none := by decide +kernel
  have hc : ∀ id, ∃ chain, g.Chain id chain := by
    intro id
    cases hp : g.parent? id with
    | none => exact ⟨_, .last hp⟩
    | some parent =>
      obtain ⟨i⟩ := id
      have hi : i < 3 := hsize ▸ Graph.lt_size_of_parent? hp
      obtain rfl | rfl | rfl : i = 0 ∨ i = 1 ∨ i = 2 := by omega
      · exact ⟨_, .last hroots.1⟩
      · exact ⟨_, .step hheld (.last hroots.1)⟩
      · exact ⟨_, .last hroots.2⟩
  have hi : ∀ r ∈ requests, r.scope.index < g.size := by
    rw [hsize]
    decide +kernel
  have hlinked : linking.graph.targets ⟨0⟩ "focus" = [⟨1⟩] ∧
      linking.failed = 3 := by decide +kernel
  obtain ⟨hs, -, htold, -⟩ := ofRequests_accounts .empty hc hi
  refine ⟨hc, hi, hlinked.1, hlinked.2, ?_, hs⟩
  rw [htold, hlinked.2]
  rfl

end Linking

end ModelText
