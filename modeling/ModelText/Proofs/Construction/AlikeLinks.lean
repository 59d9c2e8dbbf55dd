import ModelText.Proofs.Compilation.Journal
import ModelText.Proofs.Construction.Alike
import ModelText.Proofs.Construction.LinkOrder

/-!
# Links of alike sessions

Alike sessions have the same links for each object, in the same order, but
links of different objects can be in another order. As they do not interfere,
the same links are made, and in the end not only the targets of each reference
are the same but the graph as a whole. The same problems are told, up to their
order and places.
-/

namespace ModelText

namespace LinkRequest

variable {r r' : LinkRequest}

/-- Whether a link is made does not depend on its place. -/
theorem settled_unplaced (r : LinkRequest) (g : Graph) :
    r.unplaced.settled g = r.settled g := rfl

theorem target_settled (h : r.scope ≠ r'.scope) (g : Graph) :
    r.target (r'.settled g) = r.target g := by
  cases ht : r'.target g with
  | ok target =>
    rw [settled_of_ok ht]
    exact r.target_made h g target
  | error fault => rw [settled_of_error ht]

/-- Links of different objects can be made in either order. -/
theorem settled_comm (h : r.scope ≠ r'.scope) (g : Graph) :
    r'.settled (r.settled g) = r.settled (r'.settled g) := by
  have ht := target_settled h g
  have ht' := target_settled h.symm g
  cases hr : r.target g with
  | error fault =>
    rw [settled_of_error hr, settled_of_error (ht.trans hr)]
  | ok target =>
    rw [settled_of_ok hr] at ht' ⊢
    rw [settled_of_ok (ht.trans hr)]
    cases hr' : r'.target g with
    | error fault =>
      rw [settled_of_error hr', settled_of_error (ht'.trans hr')]
    | ok target' =>
      rw [settled_of_ok hr', settled_of_ok (ht'.trans hr')]
      exact Graph.update_comm g h _ _

theorem filter_unplaced (requests : List LinkRequest) (id : ObjectId) :
    (requests.map (·.unplaced)).filter (·.scope = id) =
      linksOf requests id := by
  rw [List.filter_map]
  rfl

/-- Places have no influence on what comes of links. -/
theorem outcomes_unplaced (requests : List LinkRequest) (g : Graph) :
    outcomes g (requests.map (·.unplaced)) =
      (outcomes g requests).map fun o => ⟨o.request.unplaced, o.result⟩ := by
  induction requests generalizing g with
  | nil => rfl
  | cons r rest ih =>
    rw [List.map_cons, outcomes, outcomes, settled_unplaced, ih]
    rfl

/-- Lists with the same links for each object differ in the order only, and keep
the order of the links of each reference. -/
theorem reordered_of_linksOf {requests requests' : List LinkRequest}
    (h : ∀ id, linksOf requests' id = linksOf requests id) :
    Reordered (requests.map (·.unplaced)) (requests'.map (·.unplaced)) where
  perm := perm_of_filter_eq (·.scope) fun id => by
    rw [filter_unplaced, filter_unplaced, h]
  order scope feature := by
    have hf := congrArg (List.filter (·.reference.name = feature)) (h scope)
    rw [← filter_unplaced, ← filter_unplaced, List.filter_filter,
      List.filter_filter] at hf
    simpa [Bool.and_comm] using hf

end LinkRequest

namespace Linking

open LinkRequest (outcomes)

theorem graph_foldl_add (requests : List LinkRequest) (l : Linking) :
    (requests.foldl add l).graph =
      requests.foldl (fun g r => r.settled g) l.graph := by
  induction requests generalizing l with
  | nil => rfl
  | cons r rest ih => rw [List.foldl_cons, ih, graph_add, List.foldl_cons]

theorem graph_ofRequests (requests : List LinkRequest) (g : Graph)
    (sink : Sink) : (ofRequests requests g sink).graph =
      (requests.map (·.unplaced)).foldl (fun g r => r.settled g) g := by
  rw [List.foldl_map]
  exact graph_foldl_add requests ⟨g, sink, 0⟩

theorem Outcome.unplaced_problem? (o : Outcome) :
    ((⟨o.request.unplaced, o.result⟩ : Outcome).problem?).map
      Problem.unplaced = o.problem?.map Problem.unplaced := by
  obtain ⟨r, result⟩ := o
  cases result <;> rfl

/-- What is told of links, without places. -/
theorem told_unplaced (requests : List LinkRequest) (g : Graph) :
    ((outcomes g (requests.map (·.unplaced))).filterMap
      Outcome.problem?).map Problem.unplaced =
    ((outcomes g requests).filterMap Outcome.problem?).map
      Problem.unplaced := by
  rw [LinkRequest.outcomes_unplaced, List.map_filterMap, List.map_filterMap,
    List.filterMap_map]
  exact List.filterMap_congr fun o _ => o.unplaced_problem?

end Linking

/-- In alike sessions the same links are made, and the same problems are told.
-/
theorem Session.Alike.link {s s' : Session} (h : s.Alike everywhere s') :
    s'.link.graph = s.link.graph ∧
      ∀ source, ((s'.link.sink.problems source).map Problem.unplaced).Perm
        ((s.link.sink.problems source).map Problem.unplaced) := by
  have hl : ∀ id, LinkRequest.linksOf s'.requests id =
      LinkRequest.linksOf s.requests id := fun id => h.links id trivial
  constructor
  · have hg : s'.link.graph = _ := Linking.graph_ofRequests _ _ s'.sink
    rw [hg, h.graph]
    refine Eq.trans ?_ (Linking.graph_ofRequests s.requests s.graph s.sink).symm
    have hf : ∀ id, (s'.requests.map (·.unplaced)).filter (·.scope = id) =
        (s.requests.map (·.unplaced)).filter (·.scope = id) := by
      intro id
      rw [LinkRequest.filter_unplaced, LinkRequest.filter_unplaced, hl]
    refine foldl_eq_of_filter_eq ?_ hf s.graph
    exact fun r _ r' _ hne g => LinkRequest.settled_comm hne g
  · intro source
    have hs : ∀ t : Session, (t.link.sink.problems source).map
        Problem.unplaced = (t.sink.problems source).map Problem.unplaced ++
          (((LinkRequest.outcomes t.graph
            (t.requests.map (·.unplaced))).filterMap
              (·.problem?)).map Problem.unplaced).filter
                (·.source = source) := by
      intro t
      unfold Session.link
      dsimp only
      rw [Linking.sink_ofRequests, Sink.problems_foldl_report, List.map_append,
        Linking.told_unplaced, List.filter_map]
      rfl
    rw [hs s', hs s, h.problems, h.graph]
    refine .append_left _ (.filter _ (.map _ (.filterMap _ ?_)))
    exact (LinkRequest.reordered_of_linksOf hl).outcomes s.graph

end ModelText
