import ModelText.Proofs.Construction.Outcomes

/-!
# Links in another order

Two links interfere only where they belong to the same reference of the same
object: a reference that takes one target has none left for the second link.
What comes of the links of one reference is therefore the same in every order of
all links that keeps the order of these. Taken together, the references have the
same targets in the end, and the same problems are told, though in another order.
-/

namespace ModelText

/-- Lists in which the elements of each key are the same, in the same order, have
the same elements. -/
theorem perm_of_filter_eq {α κ : Type} [DecidableEq κ] (key : α → κ)
    {list list' : List α}
    (h : ∀ k, list.filter (key · = k) = list'.filter (key · = k)) :
    list.Perm list' := by
  classical
  rw [List.perm_iff_count]
  intro x
  have hx : ∀ list : List α,
      (list.filter (key · = key x)).count x = list.count x :=
    fun _ => List.count_filter (by simp)
  rw [← hx list, h, hx]

namespace LinkRequest

/-- The second list has the same links in an order of its own, which keeps the
order of the links of each reference of each object. -/
structure Reordered (requests requests' : List LinkRequest) : Prop where
  perm : requests'.Perm requests
  order : ∀ scope feature,
    requests'.filter (fun r => r.scope = scope ∧ r.reference.name = feature) =
      requests.filter fun r => r.scope = scope ∧ r.reference.name = feature

variable {requests requests' : List LinkRequest}

theorem Reordered.filter_key (h : Reordered requests requests')
    (k : ObjectId × String) :
    requests'.filter (·.key = k) = requests.filter (·.key = k) := by
  have hk : ∀ r : LinkRequest, decide (r.key = k) =
      decide (r.scope = k.1 ∧ r.reference.name = k.2) :=
    fun r => decide_eq_decide.2 Prod.ext_iff
  simp only [hk]
  exact h.order k.1 k.2

theorem Reordered.filter_outcomes (h : Reordered requests requests') (g : Graph)
    (k : ObjectId × String) :
    (outcomes g requests').filter (·.request.key = k) =
      (outcomes g requests).filter (·.request.key = k) := by
  rw [outcomes_filter, outcomes_filter, h.filter_key]

/-- The same comes of each link. -/
theorem Reordered.outcomes (h : Reordered requests requests') (g : Graph) :
    (outcomes g requests').Perm (outcomes g requests) :=
  perm_of_filter_eq (fun o => o.request.key) (h.filter_outcomes g)

end LinkRequest

namespace Linking

/-- Only the links of a reference bring it targets. -/
theorem Outcome.filterMap_target? (k : ObjectId × String)
    (outcomes : List Outcome) :
    (outcomes.filter (·.request.key = k)).filterMap (target? k) =
      outcomes.filterMap (target? k) := by
  rw [List.filterMap_filter]
  refine List.filterMap_congr fun o _ => ?_
  unfold target?
  by_cases hk : o.request.key = k <;> simp [hk]

/-- **Links can be made in any order** that keeps the order of those of the same
reference of the same object: every reference of every object gets the same
targets in the same order, the rest of the graph is the same, and so are, but for
their order, the problems that are told, and their number. -/
theorem ofRequests_reordered (g : Graph) (sink : Sink)
    {requests requests' : List LinkRequest}
    (h : LinkRequest.Reordered requests requests') :
    let l := ofRequests requests g sink
    let l' := ofRequests requests' g sink
    (∀ id feature, l'.graph.targets id feature = l.graph.targets id feature) ∧
    l.graph.SameButReferences l'.graph ∧
    (∃ told told' : List Problem, l.sink = told.foldl Sink.report sink ∧
      l'.sink = told'.foldl Sink.report sink ∧ told'.Perm told) ∧
    l'.failed = l.failed := by
  have htold := (h.outcomes g).filterMap Outcome.problem?
  refine ⟨fun id feature => ?_, ?_, ⟨_, _, sink_ofRequests requests g sink,
    sink_ofRequests requests' g sink, htold⟩, ?_⟩
  · rw [targets_ofRequests, targets_ofRequests, ← Outcome.filterMap_target?,
      h.filter_outcomes, Outcome.filterMap_target?]
  · exact (sameButReferences_ofRequests requests g sink).symm.trans
      (sameButReferences_ofRequests requests' g sink)
  · rw [failed_ofRequests, failed_ofRequests, htold.length_eq]

/-- Of two links of a reference that takes one target, the first one is made,
whatever links of another reference stand between and around them. -/
theorem ofRequests_reordered_panel :
    let focus : Feature := ⟨"focus", "Panel", false, false⟩
    let next : Feature := ⟨"next", "Panel", false, false⟩
    let panel : StructuredType :=
      .object ⟨"Panel", "UI", false, true, .empty, [], [], [focus, next]⟩
    let object (name : String) : Object :=
      { Object.new panel with name := some name }
    let g : Graph := ⟨#[object "main", object "side"], [⟨0⟩, ⟨1⟩]⟩
    let request (reference : Feature) (path : List String) : LinkRequest :=
      ⟨"main", ⟨2, 8⟩, { start := 24, stop := 28 }, ⟨0⟩, reference, path⟩
    let a := request focus ["side"]
    let b := request focus ["main"]
    let c := request next ["nowhere"]
    let l := ofRequests [a, b, c] g .empty
    let l' := ofRequests [c, a, b] g .empty
    LinkRequest.Reordered [a, b, c] [c, a, b] ∧
      l'.graph.targets ⟨0⟩ "focus" = [⟨1⟩] ∧ l'.failed = 2 ∧
      ∃ told told' : List Problem, l.sink = told.foldl Sink.report .empty ∧
        l'.sink = told'.foldl Sink.report .empty ∧ told'.Perm told := by
  intro focus next panel object g request a b c l l'
  have h : LinkRequest.Reordered [a, b, c] [c, a, b] := by
    refine ⟨by decide +kernel, fun scope feature => ?_⟩
    by_cases hf : feature = "next"
    · simp [a, b, c, request, focus, next, hf, List.filter_cons]
    · simp [a, b, c, request, focus, next, Ne.symm hf, List.filter_cons]
  obtain ⟨htargets, -, htold, hfailed⟩ := ofRequests_reordered g .empty h
  have hl : l.graph.targets ⟨0⟩ "focus" = [⟨1⟩] ∧ l.failed = 2 := by
    decide +kernel
  exact ⟨h, (htargets _ _).trans hl.1, hfailed.trans hl.2, htold⟩

end Linking

end ModelText
