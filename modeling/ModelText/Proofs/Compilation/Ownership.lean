import ModelText.Proofs.Compilation.Conformance
import ModelText.Proofs.Construction.Ownership

/-!
# Compiled graphs are forests

Every unit keeps the forest of ownership, whatever is wrong with it, and links
have nothing to do with ownership. So the graph of a compilation is a forest:
all walks through it end, and the outline of an object shows what is below it
once.
-/

namespace ModelText

open Relation (ReflTransGen)

theorem Workspace.forest_unit (w : Workspace) (name : String) {s : Session}
    (h : s.graph.Forest) : (w.unit name s).2.graph.Forest := by
  unfold unit
  cases w.fetch name with
  | none => exact h
  | some text => exact Session.forest_walkUnit (w.context name text) h

theorem Linking.forest_foldl_add (requests : List LinkRequest) {l : Linking}
    (h : l.graph.Forest) : (requests.foldl add l).graph.Forest := by
  induction requests generalizing l with
  | nil => exact h
  | cons r rest ih =>
    refine ih ?_
    unfold add
    cases ha : r.apply l.graph with
    | error => exact h
    | ok found =>
      obtain ⟨target, -, hl⟩ := r.apply_eq_ok ha
      dsimp only
      rw [(Graph.link_eq_ok hl).2]
      have hg : Graph.Grows [] l.graph
          (l.graph.update r.scope (·.refer r.reference.name target)) := by
        refine h.grows_update ?_ ?_ ?_ ?_ ?_ <;> exact fun _ => rfl
      exact hg.forest

/-- In a compiled graph every owner comes before what it owns, and everything
has at most one owner and is owned by it once; records are neither held nor
roots. So the walk outwards from every object ends, as does every search by
name, and the outline of an object is written to its end, with one heading for
each object that is below it. -/
theorem compile_forest (m : Metamodel) (config : Config)
    (entries : List String) (sources : Sources) {r : Compilation}
    (hr : compile m config entries sources = .ok r) :
    r.graph.Forest ∧
      (∀ id type, r.graph.type? id = some (.record type) →
        r.graph.parent? id = none ∧ id ∉ r.graph.roots) ∧
      (∀ id, r.graph.Chain id (r.graph.enclosing id)) ∧
      (∀ scope path found, r.graph.Resolves scope path found ↔
        found = r.graph.resolve? scope path) ∧
      ∀ id, r.graph.Renders 0 id (r.graph.outline id) ∧
        (Graph.headings (r.graph.outline id)).Nodup ∧
        (id.index < r.graph.size → ∀ x,
          x ∈ Graph.headings (r.graph.outline id) ↔
            ReflTransGen r.graph.Owns id x) := by
  have hg : r.graph.Forest := by
    obtain ⟨names, -, -, -, -, hg, -⟩ := compile_builds hr
    rw [hg]
    refine Linking.forest_foldl_add _ ?_
    exact Progress.units_keep (P := fun s => s.graph.Forest)
      (fun name _ => Workspace.forest_unit _ name) names
      Construction.handedOut_new Graph.Forest.empty
  refine ⟨hg, fun id type => hg.record, Graph.chain_enclosing hg.acyclic_heldBy,
    Graph.resolves_iff hg.acyclic_heldBy, fun id => ?_⟩
  have hw := Graph.renders_outline hg.acyclic_owns id
  exact ⟨hw, hg.nodup_headings hw, fun hi x => hg.mem_headings_iff hw hi⟩

theorem compile_forest_main :
    let width : SlotDefinition := ⟨"width", "Integer", false, false, none⟩
    let size : SlotDefinition := ⟨"size", "Size", false, false, none⟩
    let parts : FeatureDefinition := ⟨"parts", "Part", false, true⟩
    let part : ObjectDefinition :=
      ⟨"Part", false, true, [], [size], [parts], []⟩
    let s : Schema := ⟨[⟨"parts", [], [part], [⟨"Size", [width]⟩], [], []⟩]⟩
    let text := "language parts\npart a \x7b size = #(width = 2) " ++
      "parts \x7b part b part c \x7d \x7d"
    let sources := (NameMap.empty.insert "main" text).sources
    ∃ c r, s.catalog = .ok c ∧
      compile c.metamodel .default ["main"] sources = .ok r ∧
      Graph.headings (r.graph.outline ⟨0⟩) = [⟨0⟩, ⟨1⟩, ⟨2⟩, ⟨3⟩] ∧
      r.graph.Forest := by
  intro width size parts part s text sources
  obtain ⟨c, hc, hs⟩ : ∃ c, s.catalog = .ok c ∧ Graph.headings
      ((compileUnits c.metamodel .default ["main"] sources).graph.outline
        ⟨0⟩) = [⟨0⟩, ⟨1⟩, ⟨2⟩, ⟨3⟩] :=
    exists_ok_of_any (by decide +kernel)
  exact ⟨c, _, hc, rfl, hs,
    (compile_forest c.metamodel .default ["main"] sources rfl).1⟩

end ModelText
