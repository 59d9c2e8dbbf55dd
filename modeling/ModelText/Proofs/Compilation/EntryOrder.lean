import Mathlib
import ModelText.Proofs.Compilation.Orders
import ModelText.Proofs.Compilation.Providers
import ModelText.Proofs.Construction.Linking

/-!
# The order of the units asked for does not matter

In whatever order units are asked for, the same units are reached, and they are
built in some order, each once. What can be seen of a unit is its problems and
the outlines of its elements at the top level. If no two roots have the same
name, the links are the same up to the numbers of the objects, and what is seen
of each unit is the same.
-/

namespace ModelText

/-- What can be seen of a unit. -/
structure UnitView where
  /-- The name of the unit. -/
  source : String
  /-- Its problems. -/
  problems : List Problem
  /-- The outlines of its elements at the top level. -/
  outlines : List String
  deriving DecidableEq

namespace Compilation

/-- What can be seen of a unit from its result. -/
def view (c : Compilation) (r : UnitResult) : UnitView :=
  ⟨r.source, r.problems, r.roots.map c.graph.outlineText⟩

/-- What can be seen of the unit of a given name. -/
def viewsOf (c : Compilation) (name : String) : List UnitView :=
  (c.results.filter (·.source = name)).map c.view

theorem viewsOf_eq_filter (c : Compilation) (name : String) :
    c.viewsOf name = (c.results.map c.view).filter (·.source = name) := by
  rw [List.filter_map]
  rfl

/-- Two compilations have results for the same units, and what is seen of each
unit is the same. -/
structure SameViews (c c' : Compilation) : Prop where
  sources : (c.results.map (·.source)).Perm (c'.results.map (·.source))
  views : ∀ name, c.viewsOf name = c'.viewsOf name

/-- Where each unit has one result, the order of the results does not matter. -/
theorem sameViews_of_perm {c c' : Compilation}
    (h : (c.results.map c.view).Perm (c'.results.map c'.view))
    (hd : (c.results.map (·.source)).Nodup) : SameViews c c' where
  sources := by
    have hs := h.map UnitView.source
    rw [List.map_map, List.map_map] at hs
    exact hs
  views name := by
    have hf := h.filter (·.source = name)
    rw [← viewsOf_eq_filter, ← viewsOf_eq_filter] at hf
    cases hr : c.results.filter (·.source = name) with
    | nil =>
      have hn : c.viewsOf name = [] := by
        unfold viewsOf
        rw [hr]
        rfl
      rw [hn] at hf ⊢
      exact (List.nil_perm.1 hf).symm
    | cons r rest =>
      have hm : r ∈ c.results.filter (·.source = name) := by
        rw [hr]
        exact List.mem_cons_self
      obtain ⟨hm, hs⟩ := List.mem_filter.1 hm
      have hone : c.viewsOf name = [c.view r] := by
        unfold viewsOf
        rw [← of_decide_eq_true hs, UnitResult.filter_source hd hm]
        rfl
      rw [hone] at hf ⊢
      exact List.singleton_perm.1 hf

end Compilation

/-- Two outcomes are the same as far as units are concerned: both fail for the
same reason, or both show the same of each unit, unless roots of the first one
share a name. -/
def SameOutcome :
    Except CompileError Compilation → Except CompileError Compilation → Prop
  | .error e, .error e' => e = e'
  | .ok c, .ok c' => c.graph.RootsApart → c.SameViews c'
  | _, _ => False

/-! ### Links -/

/-- The graph and the problems of each unit, when the links are made. -/
def Session.linked (s : Session) : Linked :=
  s.requests.foldl Linked.add ⟨s.graph, s.sink.problems⟩

namespace Session

variable (s : Session)

theorem ofLinking_link : Linked.ofLinking
    (Linking.ofRequests s.requests s.graph s.sink) = s.linked :=
  Linked.ofLinking_foldl s.requests ⟨s.graph, s.sink, 0⟩

theorem graph_link : s.link.graph = s.linked.graph :=
  congrArg Linked.graph s.ofLinking_link

theorem problems_link : s.link.sink.problems = s.linked.problems :=
  congrArg Linked.problems s.ofLinking_link

theorem Closed.targetsNamed {s : Session} (h : s.Closed) :
    s.linked.graph.TargetsNamed := by
  refine Linked.targetsNamed_foldl s.requests ?_
  intro id o ho reference targets hr
  rw [h.unlinked id o ho] at hr
  cases hr

end Session

namespace Progress

variable {w : Workspace} {p q : Progress} {ρ : ObjectId → ObjectId}

/-- The links are the same in another order of building. -/
theorem Iso.linked (hi : Iso ρ p q) (hp : Tidy w p) (hq : Tidy w q)
    (hr : p.construction.graph.RootsApart) :
    Linked.Iso ρ p.construction.toSession.linked
      q.construction.toSession.linked := by
  have hs : Linked.Iso ρ
      ⟨p.construction.graph, p.construction.sink.problems⟩
      ⟨q.construction.graph, q.construction.sink.problems⟩ :=
    ⟨hi.graph, funext hi.problems⟩
  have hl := hs.foldl hr hp.closed.requests
  -- The links of each unit come in the same order, and the others do not matter.
  have hf : ∀ source, q.construction.requests.filter (·.source = source) =
      (p.construction.requests.map (.rename ρ)).filter (·.source = source) := by
    intro source
    rw [hi.requests, filter_rename]
  have hsame : q.construction.toSession.linked =
      (p.construction.requests.map (.rename ρ)).foldl Linked.add
        ⟨q.construction.graph, q.construction.sink.problems⟩ := by
    refine foldl_eq_of_filter_eq ?_ hf _
    intro r hr r' hr' hne l
    exact Linked.add_comm (fun he => hne (hq.scopes r hr r' hr' he)) hne l
  rw [hsame]
  exact hl

theorem finish_graph (p : Progress) (config : Config) :
    (p.finish config).graph = p.construction.toSession.linked.graph :=
  p.construction.toSession.graph_link

/-- What is seen of each unit is the same in another order of building. -/
theorem Iso.views (hi : Iso ρ p q) (hp : Tidy w p) (hq : Tidy w q)
    (hdp : p.processed.Nodup) (hdq : q.processed.Nodup) (config : Config)
    (hr : (p.finish config).graph.RootsApart) :
    ((q.finish config).results.map (q.finish config).view).Perm
      ((p.finish config).results.map (p.finish config).view) := by
  rw [finish_graph, Session.linked, Linked.rootsApart_foldl] at hr
  have hl := hi.linked hp hq hr
  have ht := hp.closed.targetsNamed
  have hv : ∀ unit : String × List ObjectId,
      (q.finish config).view (config.result unit.1 (unit.2.map ρ)
        (q.construction.toSession.link.sink.problems unit.1)) =
      (p.finish config).view (config.result unit.1 unit.2
        (p.construction.toSession.link.sink.problems unit.1)) := by
    intro unit
    rw [Session.problems_link, Session.problems_link, hl.problems]
    unfold Compilation.view
    rw [finish_graph, finish_graph]
    unfold Config.result
    refine congrArg (UnitView.mk _ _) ?_
    dsimp only
    split
    · rfl
    · rw [List.map_map]
      exact List.map_congr_left fun id _ => hl.graph.outlineText ht id
  have hb := hi.built.map fun unit => (q.finish config).view
    (config.result unit.1 unit.2
      (q.construction.toSession.link.sink.problems unit.1))
  rw [List.map_map] at hb
  have hrp := congrArg Compilation.results (hp.finish_eq hdp config)
  have hrq := congrArg Compilation.results (hq.finish_eq hdq config)
  rw [hrp, hrq, List.map_map, List.map_map]
  refine hb.trans (List.Perm.of_eq (List.map_congr_left fun unit _ => ?_))
  exact hv unit

end Progress

/-! ### Units asked for -/

theorem Config.mem_entries_of_perm (config : Config) (m : Metamodel)
    {entries entries' : List String} (h : entries.Perm entries')
    (name : String) :
    name ∈ config.entries m entries ↔ name ∈ config.entries m entries' := by
  unfold Config.entries
  rw [NameSet.mem_toList, NameSet.mem_toList, NameSet.mem_ofList,
    NameSet.mem_ofList, List.mem_append, List.mem_append, h.mem_iff]

theorem Workspace.Reaches.mono {w : Workspace} {entries entries' : List String}
    (he : entries ⊆ entries') {name : String} (h : w.Reaches entries name) :
    w.Reaches entries' name := by
  induction h with
  | entry hn => exact .entry (he hn)
  | imported _ hi ih => exact .imported ih hi

theorem Workspace.Layers.perm {w : Workspace} {entries entries' : List String}
    {layers layers' : List (List String)} (h : w.Layers [] entries layers)
    (h' : w.Layers [] entries' layers') (hd : entries.Nodup)
    (hd' : entries'.Nodup) (he : ∀ name, name ∈ entries ↔ name ∈ entries') :
    layers.flatten.Perm layers'.flatten := by
  have hn : layers.flatten.Nodup := h.nodup hd
  have hn' : layers'.flatten.Nodup := h'.nodup hd'
  rw [List.perm_ext_iff_of_nodup hn hn']
  intro name
  rw [h.mem_iff_reaches, h'.mem_iff_reaches]
  exact ⟨.mono fun name hm => (he name).1 hm, .mono fun name hm => (he name).2 hm⟩

/-- Batches with the same units show the same of each of them. -/
theorem Workspace.Layers.sameViews {w : Workspace}
    (hu : w.fatalScope = .unit) {entries entries' : List String}
    {layers layers' : List (List String)} (h : w.Layers [] entries layers)
    (h' : w.Layers [] entries' layers') (hd : entries.Nodup)
    (hd' : entries'.Nodup) (he : ∀ name, name ∈ entries ↔ name ∈ entries')
    (config : Config)
    (hr : ((layers.flatten.foldl (Progress.addUnit w) .start).finish
      config).graph.RootsApart) :
    ((layers.flatten.foldl (Progress.addUnit w) .start).finish
      config).SameViews
        ((layers'.flatten.foldl (Progress.addUnit w) .start).finish config) := by
  have hn : layers.flatten.Nodup := h.nodup hd
  have hn' : layers'.flatten.Nodup := h'.nodup hd'
  have ht := Progress.tidy_start w
  obtain ⟨ρ, hi⟩ := ht.iso_of_perm hu (h.perm h' hd hd' he) hn
  have hp := ht.addUnits hn
  have hq := ht.addUnits hn'
  have hproc : ∀ names : List String,
      (names.foldl (Progress.addUnit w) .start).processed = names :=
    Progress.processed_addBatch w .start
  have hdp := hn
  rw [← hproc layers.flatten] at hdp
  have hdq := hn'
  rw [← hproc layers'.flatten] at hdq
  refine Compilation.sameViews_of_perm ?_ ?_
  · exact (hi.views hp hq hdp hdq config hr).symm
  · rw [hp.sources_finish hdp config]
    exact hdp

/-- The order in which units are asked for does not matter: whatever the supply
of texts, if finitely many units are reached and each unit has its own fatal
problems, the same units are compiled, and what is seen of each of them is the
same, unless two roots have the same name. -/
theorem compile_entry_order (c : Catalog) (config : Config)
    (hu : config.fatalScope = .unit) (provider : String → Option String)
    {entries entries' : List String} (hp : entries.Perm entries')
    (hf : (config.workspace c.metamodel
      (c.metamodel.layered provider)).Finite
        (config.entries c.metamodel entries)) :
    ∃ outcome outcome',
      config.Compiles c.metamodel provider entries outcome ∧
      config.Compiles c.metamodel provider entries' outcome' ∧
      (∀ sources : Sources, sources.fetch = provider →
        compile c.metamodel config entries sources = outcome ∧
        compile c.metamodel config entries' sources = outcome') ∧
      SameOutcome outcome outcome' := by
  have hcompile : ∀ {outcome outcome'},
      config.Compiles c.metamodel provider entries outcome →
      config.Compiles c.metamodel provider entries' outcome' →
      ∀ sources : Sources, sources.fetch = provider →
        compile c.metamodel config entries sources = outcome ∧
        compile c.metamodel config entries' sources = outcome' := by
    rintro outcome outcome' h h' sources rfl
    exact ⟨h.compile_eq, h'.compile_eq⟩
  have he := config.mem_entries_of_perm c.metamodel hp
  have hf' : (config.workspace c.metamodel
      (c.metamodel.layered provider)).Finite
        (config.entries c.metamodel entries') := by
    obtain ⟨all, ha⟩ := hf
    exact ⟨all, fun name hr => ha name (hr.mono fun name hm => (he name).2 hm)⟩
  cases hn : entries.isEmpty && !config.implicitBuiltIns with
  | true =>
    have hn' : (entries'.isEmpty && !config.implicitBuiltIns) = true := by
      rw [← hp.isEmpty_eq, hn]
    have h : config.Compiles c.metamodel provider entries _ :=
      Config.compiles_error hn
    have h' : config.Compiles c.metamodel provider entries' _ :=
      Config.compiles_error hn'
    exact ⟨_, _, h, h', hcompile h h', rfl⟩
  | false =>
    have hn' : (entries'.isEmpty && !config.implicitBuiltIns) = false := by
      rw [← hp.isEmpty_eq, hn]
    obtain ⟨layers, hl, h⟩ := Config.compiles_ok hn hf
    obtain ⟨layers', hl', h'⟩ := Config.compiles_ok hn' hf'
    exact ⟨_, _, h, h', hcompile h h', hl.sameViews hu hl' (NameSet.nodup _)
      (NameSet.nodup _) he config⟩

theorem compile_entry_order_pair :
    let shape : ObjectType := ⟨"Shape", "shapes", false, true, .empty, [], [],
      [⟨"next", "Shape", false, false⟩]⟩
    let c : Catalog := ⟨.ofList ["shapes"],
      NameMap.empty.insert "Shape" (.object shape), .empty⟩
    let config : Config := { Config.default with fatalScope := .unit }
    let sources := ((NameMap.empty.insert "a"
      "language shapes\nshape x \x7b next: y \x7d").insert "b"
      "language shapes\nshape y \x7b \x7d").sources
    config.fatalScope = .unit ∧ ["a", "b"].Perm ["b", "a"] ∧
      ∃ r r', compile c.metamodel config ["a", "b"] sources = .ok r ∧
        compile c.metamodel config ["b", "a"] sources = .ok r' ∧
        r.graph.RootsApart ∧ r.SameViews r' := by
  intro shape c config sources
  have hu : config.fatalScope = .unit := rfl
  have hp : ["a", "b"].Perm ["b", "a"] := .swap "b" "a" []
  have hf : (config.workspace c.metamodel
      (c.metamodel.layered sources.fetch)).Finite
        (config.entries c.metamodel ["a", "b"]) := by
    refine ⟨["a", "b"], fun name h => ?_⟩
    induction h with
    | entry h =>
      have he : config.entries c.metamodel ["a", "b"] = ["a", "b"] := by
        decide
      rwa [he] at h
    | @imported unit _ _ hi ih =>
      have hn : (config.workspace c.metamodel
          (c.metamodel.layered sources.fetch)).imports unit = [] := by
        rcases List.mem_pair.1 ih with rfl | rfl <;> cbv
      rw [hn] at hi
      cases hi
  obtain ⟨outcome, outcome', -, -, h, hs⟩ :=
    compile_entry_order c config hu sources.fetch hp hf
  obtain ⟨rfl, rfl⟩ := h sources rfl
  have hnames : (compileUnits c.metamodel config ["a", "b"]
      sources).graph.roots.map (compileUnits c.metamodel config ["a", "b"]
        sources).graph.name? = [some "x", some "y"] := by cbv
  have hr : (compileUnits c.metamodel config ["a", "b"]
      sources).graph.RootsApart := by
    refine Graph.rootsApart_of_nodup ?_
    rw [hnames]
    decide
  exact ⟨hu, hp, _, _, rfl, rfl, hr, hs hr⟩

end ModelText
