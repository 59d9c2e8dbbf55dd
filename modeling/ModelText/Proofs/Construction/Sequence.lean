import ModelText.Proofs.Construction.IsolatedUnit
import ModelText.Proofs.Construction.Refinement
import ModelText.Proofs.Metamodel.Declarations

/-!
# One unit after another

One builder builds all units of a session. However the units before have ended,
completed, given up in the middle of a record or refused as a whole, nothing of
them is left that the next unit could notice: it adds to the session what it
adds to a new one, with the numbers of its objects moved behind those that are
there.
-/

namespace ModelText

namespace Construction

/-- Builds units one after another. -/
def buildAll (c : Construction) : List BuildContext → Construction
  | [] => c
  | ctx :: rest => (c.build ctx).2.buildAll rest

@[simp] theorem buildAll_nil (c : Construction) : c.buildAll [] = c := rfl

theorem buildAll_cons (c : Construction) (ctx : BuildContext)
    (rest : List BuildContext) :
    c.buildAll (ctx :: rest) = (c.build ctx).2.buildAll rest := rfl

variable {c : Construction}

theorem HandedOut.buildAll (h : HandedOut c) (earlier : List BuildContext) :
    HandedOut (c.buildAll earlier) := by
  induction earlier generalizing c with
  | nil => exact h
  | cons ctx rest ih => exact ih (handedOut_build c ctx)

theorem HandedOut.problems_build (h : HandedOut c) (ctx : BuildContext)
    {name : String} (hn : name ≠ ctx.unit.name) :
    (c.build ctx).2.sink.problems name = c.sink.problems name := by
  have hs : (c.build ctx).2.sink = c.sink.append ctx.unit.name
      (Session.empty.walkUnit ctx).2.sink := by
    rw [(h.build_eq ctx).2, (Session.walkUnit_alone _ ctx).session]
    rfl
  rw [hs, Sink.problems_append, if_neg hn]

theorem HandedOut.problems_buildAll (h : HandedOut c)
    {earlier : List BuildContext} {name : String}
    (hn : ∀ ctx ∈ earlier, ctx.unit.name ≠ name) :
    (c.buildAll earlier).sink.problems name = c.sink.problems name := by
  induction earlier generalizing c with
  | nil => rfl
  | cons ctx rest ih =>
    have hne : name ≠ ctx.unit.name :=
      (hn ctx (List.mem_cons_self ..)).symm
    rw [buildAll_cons, ih (handedOut_build c ctx) fun other ho =>
      hn other (List.mem_cons_of_mem _ ho), h.problems_build ctx hne]

/-- What is built in `c` is built in a new construction, with the numbers of its
objects moved behind the objects of `c`. -/
structure BuildsApart (c : Construction) (ctx : BuildContext) : Prop where
  /-- The objects that are there stay as they are. -/
  kept : ∀ id, id.index < c.graph.size →
    (c.build ctx).2.graph.object? id = c.graph.object? id
  /-- Behind them come those of the unit. -/
  created : ∀ id, (c.build ctx).2.graph.object? (id.shift c.graph.size) =
    ((new.build ctx).2.graph.object? id).map
      (Object.rename (ObjectId.shift c.graph.size))
  size : (c.build ctx).2.graph.size =
    c.graph.size + (new.build ctx).2.graph.size
  sessionRoots : (c.build ctx).2.graph.roots = c.graph.roots ++
    (new.build ctx).2.graph.roots.map (ObjectId.shift c.graph.size)
  roots : (c.build ctx).1.roots =
    (new.build ctx).1.roots.map (ObjectId.shift c.graph.size)
  imports : (c.build ctx).1.imports = (new.build ctx).1.imports
  problems : (c.build ctx).2.sink.problems ctx.unit.name =
    (new.build ctx).2.sink.problems ctx.unit.name
  otherProblems : ∀ name, name ≠ ctx.unit.name →
    (c.build ctx).2.sink.problems name = c.sink.problems name
  requests : (c.build ctx).2.requests = c.requests ++
    (new.build ctx).2.requests.map
      (LinkRequest.rename (ObjectId.shift c.graph.size))

theorem HandedOut.buildsApart (h : HandedOut c) {ctx : BuildContext}
    (hs : ctx.fatalScope = .unit)
    (hp : c.sink.problems ctx.unit.name = []) : c.BuildsApart ctx := by
  have alone := c.toSession.walkUnit_alone ctx
  obtain ⟨ho, hu⟩ := h.build_eq ctx
  obtain ⟨ho', hu'⟩ := handedOut_new.build_eq ctx
  have hsession : (c.build ctx).2.toSession =
      c.toSession.append ctx.unit.name (new.build ctx).2.toSession := by
    rw [hu, hu']
    exact alone.session
  have hg := congrArg Session.graph hsession
  have hk := congrArg Session.sink hsession
  refine ⟨fun id hid => ?_, fun id => ?_, ?_, ?_, ?_, ?_, ?_, fun name hn => ?_,
    congrArg Session.requests hsession⟩
  · rw [hg]
    exact Graph.object?_append_of_lt _ _ hid
  · rw [hg]
    exact Graph.object?_append_shift _ _ id
  · rw [hg]
    exact Graph.size_append _ _
  · exact congrArg Graph.roots hg
  · rw [ho, ho']
    exact alone.roots hs (by simp [Sink.hasFatalIn, hp])
  · rw [ho, ho']
    exact alone.imports
  · rw [hk]
    simp [Session.append, Sink.problems_append, hp]
  · exact h.problems_build ctx hn

/-- Units do not leave anything to the units after them. -/
theorem buildAll_buildsApart (earlier : List BuildContext) (ctx : BuildContext)
    (hs : ctx.fatalScope = .unit)
    (hn : ∀ other ∈ earlier, other.unit.name ≠ ctx.unit.name) :
    (new.buildAll earlier).BuildsApart ctx :=
  (handedOut_new.buildAll earlier).buildsApart hs
    (handedOut_new.problems_buildAll hn)

theorem buildAll_buildsApart_second :
    let first : SourceUnit := ⟨"first", "language shapes shape a"⟩
    let second : SourceUnit := ⟨"second", "shape b"⟩
    ∃ c, Schema.shapes.catalog = .ok c ∧
      let earlier : List BuildContext := [⟨c.metamodel, .unit, first⟩]
      (new.buildAll earlier).graph.size = 1 ∧
        (∀ other ∈ earlier, other.unit.name ≠ second.name) ∧
        (new.buildAll earlier).BuildsApart ⟨c.metamodel, .unit, second⟩ := by
  intro first second
  obtain ⟨c, hc, hs⟩ : ∃ c, Schema.shapes.catalog = .ok c ∧
      (new.buildAll [⟨c.metamodel, .unit, first⟩]).graph.size = 1 :=
    exists_ok_of_any (by decide +kernel)
  have hn : ∀ other ∈ [(⟨c.metamodel, .unit, first⟩ : BuildContext)],
      other.unit.name ≠ second.name := by
    simp [first, second]
  exact ⟨c, hc, hs, hn,
    buildAll_buildsApart _ ⟨c.metamodel, .unit, second⟩ rfl hn⟩

end Construction

end ModelText
