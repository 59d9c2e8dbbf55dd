import ModelText.Construction.Session
import ModelText.Graph.Resolution

/-!
# Links

When all units are built, the links that were kept are made, in the order they
were written. A path that leads nowhere and a link that the graph refuses are
told where the link stands; the other links are made all the same.
-/

namespace ModelText

namespace LinkRequest

/-- What is told about a fault of the link. -/
def problem (r : LinkRequest) (fault : Fault) : Problem :=
  .ofPosition r.source r.position (Fault.diagnostic ⟨fault, r.span⟩)

/-- Makes the link. -/
def apply (r : LinkRequest) (g : Graph) : Except Fault Graph :=
  match g.resolve? r.scope r.path with
  | none => .error (.unresolved r.path)
  | some target =>
    match g.link r.reference r.scope target with
    | .ok g => .ok g
    | .error e => .error (.refused e .link)

end LinkRequest

/-- What making links leads to. -/
structure Linking where
  /-- The objects. -/
  graph : Graph
  /-- The problems. -/
  sink : Sink
  /-- The number of links that could not be made. -/
  failed : Nat

namespace Linking

/-- Makes one more link. -/
def add (l : Linking) (r : LinkRequest) : Linking :=
  match r.apply l.graph with
  | .ok graph => { l with graph := graph }
  | .error fault =>
    { l with sink := l.sink.report (r.problem fault), failed := l.failed + 1 }

/-- Makes links, in order. -/
def ofRequests (requests : List LinkRequest) (graph : Graph) (sink : Sink) :
    Linking :=
  requests.foldl add ⟨graph, sink, 0⟩

end Linking

/-- Makes the links that wait. -/
def Session.link (s : Session) : Session :=
  let l := Linking.ofRequests s.requests s.graph s.sink
  ⟨l.graph, l.sink, []⟩

end ModelText
