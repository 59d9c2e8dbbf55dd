import ModelText.Proofs.Construction.Linking
import ModelText.Proofs.Graph.References

/-!
# What comes of links

Links are made one after another, and each of them either brings its reference
one more target or is told as a problem. `LinkRequest.outcomes` lists what comes
of each. The pass over all links is determined by this list, and the list by the
graph: whether a link can be made depends on what its path means, which no link
changes, and on the targets that its own reference has so far.

So the links of other references can as well be left out: what comes of those
of one reference of one object is the same without them.
-/

namespace ModelText

namespace Linking

/-- What comes of a link: its target, or why it was not made. -/
structure Outcome where
  /-- The link. -/
  request : LinkRequest
  /-- What comes of it. -/
  result : Except Fault ObjectId

end Linking

namespace LinkRequest

/-- The object that refers and the reference. -/
def key (r : LinkRequest) : ObjectId × String := (r.scope, r.reference.name)

/-- The graph behind the link, whether it was made or not. -/
def settled (r : LinkRequest) (g : Graph) : Graph :=
  match r.target g with
  | .ok target => r.made g target
  | .error _ => g

/-- What comes of links that are made one after another. -/
def outcomes (g : Graph) : List LinkRequest → List Linking.Outcome
  | [] => []
  | r :: rest => ⟨r, r.target g⟩ :: outcomes (r.settled g) rest

end LinkRequest

namespace Linking.Outcome

/-- The target that the link brings to the reference of an object. -/
def target? (k : ObjectId × String) (o : Outcome) : Option ObjectId :=
  if o.request.key = k then o.result.toOption else none

/-- What is told of the link. -/
def problem? (o : Outcome) : Option Problem :=
  match o.result with
  | .ok _ => none
  | .error fault => some (o.request.problem fault)

theorem problem?_eq_some {o : Outcome} {p : Problem} :
    o.problem? = some p ↔
      ∃ fault, o.result = .error fault ∧ p = o.request.problem fault := by
  unfold problem?
  cases o.result with
  | ok target => exact ⟨nofun, fun ⟨_, h, _⟩ => nomatch h⟩
  | error fault =>
    refine ⟨fun h => ⟨fault, rfl, (Option.some.inj h).symm⟩, ?_⟩
    rintro ⟨_, h, rfl⟩
    cases h
    rfl

end Linking.Outcome

/-! ### One link -/

namespace LinkRequest

variable {r : LinkRequest} {g h : Graph} {target : ObjectId}

theorem settled_of_ok (ht : r.target g = .ok target) :
    r.settled g = r.made g target := by
  unfold settled
  rw [ht]

theorem settled_of_error {fault : Fault} (ht : r.target g = .error fault) :
    r.settled g = g := by
  unfold settled
  rw [ht]

/-- A link that can be made leads to an object, which the graph lets the
reference have. -/
theorem target_eq_ok (ht : r.target g = .ok target) :
    g.resolve? r.scope r.path = some target ∧ ∃ object found,
      g.CanRefer r.reference r.scope target object found := by
  have hr := resolve?_of_target ht
  refine ⟨hr, ?_⟩
  unfold LinkRequest.target at ht
  rw [hr] at ht
  have hl : g.link r.reference r.scope target = .ok (r.made g target) := by
    rw [Graph.link_eq_mayLink]
    cases hm : g.mayLink r.reference r.scope target with
    | ok => rfl
    | error e =>
      dsimp only at ht
      rw [hm] at ht
      cases ht
  exact (Graph.link_eq_ok hl).1

theorem sameButReferences_settled (r : LinkRequest) (g : Graph) :
    g.SameButReferences (r.settled g) := by
  cases ht : r.target g with
  | ok target =>
    rw [settled_of_ok ht]
    exact g.sameButReferences_update r.scope fun _ => rfl
  | error fault =>
    rw [settled_of_error ht]
    exact .refl g

theorem targets_settled (r : LinkRequest) (g : Graph) (id : ObjectId)
    (feature : String) :
    (r.settled g).targets id feature = g.targets id feature ++
      ((Linking.Outcome.mk r (r.target g)).target? (id, feature)).toList := by
  unfold Linking.Outcome.target? key
  cases ht : r.target g with
  | error fault =>
    rw [settled_of_error ht]
    simp [Except.toOption]
  | ok target =>
    obtain ⟨-, object, found, hc⟩ := target_eq_ok ht
    rw [settled_of_ok ht]
    unfold made Graph.targets
    rw [Graph.object?_update]
    by_cases hid : id = r.scope
    · subst hid
      rw [if_pos rfl, hc.source]
      simp only [Option.map_some, Option.getD_some, Object.targets_refer,
        Prod.mk.injEq, true_and]
      by_cases hf : feature = r.reference.name
      · rw [if_pos hf, if_pos hf.symm, hf]
        rfl
      · rw [if_neg hf, if_neg (Ne.symm hf)]
        exact (List.append_nil _).symm
    · rw [if_neg hid, if_neg (fun he => hid (Prod.mk.inj he).1.symm)]
      exact (List.append_nil _).symm

theorem targets_settled_of_ne (r : LinkRequest) (g : Graph) {id : ObjectId}
    {feature : String} (hk : r.key ≠ (id, feature)) :
    (r.settled g).targets id feature = g.targets id feature := by
  rw [targets_settled, Linking.Outcome.target?, if_neg hk]
  exact List.append_nil _

/-- What comes of a link depends on the targets that its reference has, and else
on nothing that links change. -/
theorem target_congr (hs : g.SameButReferences h)
    (ht : h.targets r.scope r.reference.name =
      g.targets r.scope r.reference.name) : r.target h = r.target g := by
  have hm : ∀ found, h.mayLink r.reference r.scope found =
      g.mayLink r.reference r.scope found := by
    intro found
    have hsome := hs.read (F := Option.isSome) (fun _ => rfl) r.scope
    unfold Graph.targets at ht
    unfold Graph.mayLink
    rw [hs.type?]
    cases hg : g.object? r.scope with
    | none =>
      rw [hg, Option.isSome_none, Option.isSome_eq_false_iff,
        Option.isNone_iff_eq_none] at hsome
      rw [hsome]
    | some object =>
      rw [hg] at hsome ht
      obtain ⟨object', hh⟩ := Option.isSome_iff_exists.1 hsome
      rw [hh] at ht ⊢
      simp only [Option.map_some, Option.getD_some] at ht ⊢
      rw [ht]
  unfold target
  rw [hs.resolve?]
  simp only [hm]

/-! ### One link after another -/

/-- What comes of the links of one reference depends on the targets that it
has. -/
theorem outcomes_congr {k : ObjectId × String} {requests : List LinkRequest}
    (hk : ∀ r ∈ requests, r.key = k) (hs : g.SameButReferences h)
    (ht : h.targets k.1 k.2 = g.targets k.1 k.2) :
    outcomes h requests = outcomes g requests := by
  induction requests generalizing g h with
  | nil => rfl
  | cons r rest ih =>
    have hr := hk r List.mem_cons_self
    have hx : r.target h = r.target g := by
      refine target_congr hs ?_
      rw [show r.scope = k.1 from congrArg Prod.fst hr,
        show r.reference.name = k.2 from congrArg Prod.snd hr, ht]
    have hsettled : (r.settled g).SameButReferences (r.settled h) :=
      ((r.sameButReferences_settled g).symm.trans hs).trans
        (r.sameButReferences_settled h)
    rw [outcomes, outcomes, hx]
    refine congrArg _ (ih (fun r' hr' => hk r' (List.mem_cons_of_mem r hr'))
      hsettled ?_)
    rw [targets_settled, targets_settled, hx, ht]

/-- Links of other references do not matter. -/
theorem outcomes_filter (k : ObjectId × String) (requests : List LinkRequest)
    (g : Graph) :
    (outcomes g requests).filter (·.request.key = k) =
      outcomes g (requests.filter (·.key = k)) := by
  induction requests generalizing g with
  | nil => rfl
  | cons r rest ih =>
    rw [outcomes]
    by_cases hr : r.key = k
    · rw [List.filter_cons_of_pos (by simpa using hr),
        List.filter_cons_of_pos (by simpa using hr), ih, outcomes]
    · rw [List.filter_cons_of_neg (by simpa using hr),
        List.filter_cons_of_neg (by simpa using hr), ih]
      refine outcomes_congr (fun r' hr' => ?_) (r.sameButReferences_settled g)
        (targets_settled_of_ne r g hr)
      simpa using (List.mem_filter.1 hr').2

end LinkRequest

/-! ### The pass over all links -/

namespace Linking

open LinkRequest (outcomes)

theorem add_eq (l : Linking) (r : LinkRequest) :
    l.add r = match r.target l.graph with
      | .ok target => { l with graph := r.made l.graph target }
      | .error fault =>
        { l with
          sink := l.sink.report (r.problem fault)
          failed := l.failed + 1 } := by
  unfold add
  rw [r.apply_eq]
  cases r.target l.graph <;> rfl

theorem add_of_ok {l : Linking} {r : LinkRequest} {target : ObjectId}
    (h : r.target l.graph = .ok target) :
    l.add r = { l with graph := r.made l.graph target } := by
  rw [add_eq, h]

theorem add_of_error {l : Linking} {r : LinkRequest} {fault : Fault}
    (h : r.target l.graph = .error fault) :
    l.add r =
      { l with
        sink := l.sink.report (r.problem fault)
        failed := l.failed + 1 } := by
  rw [add_eq, h]

theorem graph_add (l : Linking) (r : LinkRequest) :
    (l.add r).graph = r.settled l.graph := by
  rw [add_eq, LinkRequest.settled]
  cases r.target l.graph <;> rfl

/-- What comes of later links depends on the graph in which the earlier ones have
left it. -/
theorem outcomes_append (first second : List LinkRequest) (l : Linking) :
    outcomes l.graph (first ++ second) =
      outcomes l.graph first ++ outcomes (first.foldl add l).graph second := by
  induction first generalizing l with
  | nil => rfl
  | cons r rest ih =>
    rw [List.cons_append, outcomes, outcomes, List.foldl_cons, ← graph_add, ih]
    rfl

theorem sameButReferences_foldl_add (requests : List LinkRequest)
    (l : Linking) :
    l.graph.SameButReferences (requests.foldl add l).graph := by
  induction requests generalizing l with
  | nil => exact .refl _
  | cons r rest ih =>
    refine .trans ?_ (ih (l.add r))
    rw [graph_add]
    exact r.sameButReferences_settled l.graph

/-- The references have the targets of the links that were made. -/
theorem targets_foldl_add (requests : List LinkRequest) (l : Linking)
    (id : ObjectId) (feature : String) :
    (requests.foldl add l).graph.targets id feature =
      l.graph.targets id feature ++
        (outcomes l.graph requests).filterMap
          (Outcome.target? (id, feature)) := by
  induction requests generalizing l with
  | nil => exact (List.append_nil _).symm
  | cons r rest ih =>
    rw [List.foldl_cons, ih, graph_add, r.targets_settled, outcomes,
      List.filterMap_cons, List.append_assoc]
    cases Outcome.target? (id, feature) ⟨r, r.target l.graph⟩ <;> rfl

/-- The other links are told, in order, and counted. -/
theorem foldl_add_problems (requests : List LinkRequest) (l : Linking) :
    let told := (outcomes l.graph requests).filterMap Outcome.problem?
    (requests.foldl add l).sink = told.foldl Sink.report l.sink ∧
      (requests.foldl add l).failed = l.failed + told.length := by
  induction requests generalizing l with
  | nil => exact ⟨rfl, rfl⟩
  | cons r rest ih =>
    obtain ⟨hs, hf⟩ := ih (l.add r)
    rw [graph_add] at hs hf
    dsimp only
    rw [List.foldl_cons, outcomes, List.filterMap_cons, hs, hf]
    unfold Outcome.problem?
    cases ht : r.target l.graph with
    | ok target =>
      rw [add_of_ok ht]
      exact ⟨rfl, rfl⟩
    | error fault =>
      rw [add_of_error ht]
      refine ⟨rfl, ?_⟩
      dsimp only
      rw [List.length_cons]
      omega

section

variable (requests : List LinkRequest) (g : Graph) (sink : Sink)

theorem sameButReferences_ofRequests :
    g.SameButReferences (ofRequests requests g sink).graph :=
  sameButReferences_foldl_add requests ⟨g, sink, 0⟩

theorem targets_ofRequests (id : ObjectId) (feature : String) :
    (ofRequests requests g sink).graph.targets id feature =
      g.targets id feature ++
        (outcomes g requests).filterMap (Outcome.target? (id, feature)) :=
  targets_foldl_add requests ⟨g, sink, 0⟩ id feature

theorem sink_ofRequests :
    (ofRequests requests g sink).sink =
      ((outcomes g requests).filterMap Outcome.problem?).foldl Sink.report
        sink :=
  (foldl_add_problems requests ⟨g, sink, 0⟩).1

theorem failed_ofRequests :
    (ofRequests requests g sink).failed =
      ((outcomes g requests).filterMap Outcome.problem?).length :=
  (foldl_add_problems requests ⟨g, sink, 0⟩).2.trans (Nat.zero_add _)

end

end Linking

end ModelText
