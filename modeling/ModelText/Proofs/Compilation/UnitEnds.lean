import ModelText.Proofs.Compilation.Authority
import ModelText.Proofs.Compilation.Faults
import ModelText.Proofs.Compilation.Journal
import ModelText.Proofs.Construction.BreakOff

/-!
# How units end

A unit of a compilation ends in one of three ways, and its result shows in
which. There is no text for it; or its text has not the right form, and then
the unit contributes its syntax errors and nothing else; or it has events, and
then these are done one after another until a fatal fault ends them. A fatal
problem ends its own unit only: the units behind are built all the same, and
links that were put aside before the fault are still made.
-/

namespace ModelText

/-! ### Three kinds of results -/

namespace UnitResult

/-- The result of a unit without a text. -/
structure Missing (w : Workspace) (u : UnitResult) : Prop where
  text : w.fetch u.source = none
  problem : ∃ p, u.problems = [p] ∧ p.severity = .fatal ∧
    p.diagnostic.category = .missingElement
  roots : u.roots = []

/-- The result of a unit that is built behind `c` and whose text has not the
right form. Its problems are those of the reader, and building it declares
nothing and adds nothing to the graph or to the links that wait. -/
structure Malformed (w : Workspace) (c : Construction) (u : UnitResult) :
    Prop where
  text : ∃ text diagnostics, w.fetch u.source = some text ∧
    Event.ofSource text = .error diagnostics ∧
    u.problems = diagnostics.map (Problem.locate u.source text) ∧
    let (outcome, left) := c.build (w.context u.source text)
    outcome = ⟨[], []⟩ ∧ left.graph = c.graph ∧ left.requests = c.requests
  problems : u.problems ≠ []
  fatal : ∀ p ∈ u.problems, p.severity = .fatal ∧
    p.diagnostic.category = .syntaxError
  roots : u.roots = []

/-- The result of a unit that is built behind `c` from its events, until a
fatal fault ends them. What the run of the events has told comes first, and
then the problems of its links. Objects, imports and links that wait are those
that the run has left. -/
structure Built (w : Workspace) (c : Construction) (linked : List Problem)
    (u : UnitResult) : Prop where
  run : ∃ text events told d, w.fetch u.source = some text ∧
    Event.ofSource text = .ok events ∧ u.problems = told ++ linked ∧
    c.begin.Ends (w.context u.source text) events told d ∧
    let (outcome, left) := c.build (w.context u.source text)
    outcome.imports = d.imports.toList ∧ left.graph = d.graph ∧
      left.requests = d.requests
  form : ∀ p ∈ u.problems, p.diagnostic.category ≠ .syntaxError
  linked : ∀ p ∈ linked, p.severity = .error
  fatal : (u.problems.filter (·.severity.isFatal)).length ≤ 1

variable {w : Workspace} {c : Construction} {linked : List Problem}
  {u : UnitResult}

theorem Missing.not_malformed (h : u.Missing w) : ¬u.Malformed w c := by
  rintro ⟨⟨text, diagnostics, hf, -⟩, -⟩
  cases h.text.symm.trans hf

theorem Missing.not_built (h : u.Missing w) : ¬u.Built w c linked := by
  rintro ⟨⟨text, events, told, d, hf, -⟩, -⟩
  cases h.text.symm.trans hf

/-- A syntax error tells the one from the other. -/
theorem Malformed.not_built (h : u.Malformed w c) : ¬u.Built w c linked := by
  intro hb
  obtain ⟨p, hp⟩ := List.exists_mem_of_ne_nil _ h.problems
  exact hb.form p hp (h.fatal p hp).2

end UnitResult

/-! ### What units tell -/

theorem Fault.category_ne_syntaxError (fault : Fault) :
    fault.category ≠ .syntaxError := by
  cases fault with
  | refused error attempt => cases error <;> exact nofun
  | _ => exact nofun

theorem Problem.Arises.category_ne_syntaxError {c : Catalog} {p : Problem}
    (h : p.Arises c) : p.diagnostic.category ≠ .syntaxError := by
  obtain ⟨f, hf, -⟩ := h
  rw [hf]
  exact f.value.category_ne_syntaxError

/-- Every fault of a text is fatal. -/
theorem SourceTree.severity_of_ofSource {text : String}
    {diagnostics : List Diagnostic} (h : ofSource text = .error diagnostics) :
    ∀ d ∈ diagnostics, d.severity = .fatal := by
  unfold ofSource at h
  split at h
  · cases h
    intro d hd
    obtain ⟨e, -, rfl⟩ := List.mem_map.1 hd
    rfl
  · split at h
    · cases h
      intro d hd
      rw [List.mem_singleton.1 hd]
      rfl
    · cases h

namespace Workspace

variable {w : Workspace} {name text : String} {names : List String}

theorem share_of_error {diagnostics : List Diagnostic}
    (hf : w.fetch name = some text)
    (ht : SourceTree.ofSource text = .error diagnostics) :
    w.share name =
      { Session.empty with
        sink := (diagnostics.map (Problem.locate name text)).foldl
          Sink.report .empty } := by
  unfold share unit
  rw [hf]
  dsimp only
  unfold Session.walkUnit
  rw [show SourceTree.ofSource (w.context name text).unit.text = _ from ht]
  exact Session.foldl_reportIn _ diagnostics .empty

/-- A unit with a tree tells faults that units can have. -/
theorem arises_share {c : Catalog} (hc : c.WellFormed)
    (hw : w.metamodel = c.metamodel) (hf : w.fetch name = some text)
    {tree : SourceTree} (ht : SourceTree.ofSource text = .ok tree)
    {source : String} {p : Problem}
    (hp : p ∈ (w.share name).sink.problems source) : p.Arises c := by
  have hs : Session.empty.Conforms c :=
    ⟨Graph.conforms_empty c, fun r hr => by cases hr⟩
  unfold share unit at hp
  rw [hf] at hp
  dsimp only at hp
  unfold Session.walkUnit at hp
  rw [show SourceTree.ofSource (w.context name text).unit.text = _ from ht]
    at hp
  have htold := Walk.told_items hc (w.context name text) hw tree.items
    ⟨.empty, .empty, .empty, []⟩ hs
  exact (htold source p hp).resolve_left List.not_mem_nil

/-- The problems of a unit in the end: those of its share, and then those of its
links. -/
theorem problems_link (hd : names.Nodup) (hn : name ∈ names) :
    (w.built names).link.sink.problems name =
      (w.share name).sink.problems name ++
        ((LinkRequest.outcomes (w.built names).graph
          (w.built names).requests).filterMap (·.problem?)).filter
            (·.source = name) := by
  have hp := problems_behind (w := w) hd name
  rw [if_pos hn, ← w.session_built] at hp
  rw [← hp, ← Sink.problems_foldl_report, ← Linking.sink_ofRequests]
  rfl

/-- Links that wait come from units that put links aside. -/
theorem requests_share_ne_nil (names : List String) :
    ∀ q ∈ (w.built names).requests, (w.share q.source).requests ≠ [] := by
  refine Progress.units_keep
    (P := fun s => ∀ q ∈ s.requests, (w.share q.source).requests ≠ [])
    (fun name s hs q hq => ?_) names Construction.handedOut_new nofun
  rw [w.session_unit] at hq
  rcases List.mem_append.1 hq with hq | hq
  · exact hs q hq
  · obtain ⟨q', hq', rfl⟩ := List.mem_map.1 hq
    have hsource : q'.source = name := source_of_mem_share hq'
    change (w.share q'.source).requests ≠ []
    rw [hsource]
    exact List.ne_nil_of_mem hq'

/-- A unit that puts no links aside has no problems with links. -/
theorem linked_eq_nil (h : (w.share name).requests = []) (g : Graph) :
    ((LinkRequest.outcomes g (w.built names).requests).filterMap
      (·.problem?)).filter (·.source = name) = [] := by
  refine List.filter_eq_nil_iff.2 fun p hp hs => ?_
  obtain ⟨o, ho, he⟩ := List.mem_filterMap.1 hp
  obtain ⟨fault, -, rfl⟩ := Linking.Outcome.problem?_eq_some.1 he
  refine requests_share_ne_nil names _ (Linking.mem_outcomes ho).1 ?_
  rw [← h]
  exact congrArg (fun source => (w.share source).requests)
    (of_decide_eq_true hs)

/-- What a unit tells behind others is what it tells on its own. -/
theorem problems_build (hd : (names ++ [name]).Nodup)
    (hf : w.fetch name = some text) :
    (w.built names).sink.problems name = [] ∧
      ((w.built names).build (w.context name text)).2.sink.problems name =
        (w.share name).sink.problems name := by
  obtain ⟨hfirst, -, hapart⟩ := List.nodup_append.1 hd
  have hfresh : (w.built names).sink.problems name = [] := by
    rw [w.session_built, problems_behind hfirst, if_neg]
    exact fun hm => hapart name hm name List.mem_cons_self rfl
  obtain ⟨-, hs⟩ := (w.handedOut_built names).build_eq (w.context name text)
  have hu : ((w.built names).toSession.walkUnit (w.context name text)).2 =
      (w.built names).toSession.append name (w.share name) := by
    rw [← w.session_unit]
    unfold unit
    rw [hf]
  refine ⟨hfresh, ?_⟩
  rw [hs, hu]
  refine (Sink.problems_append _ _ _ _).trans ?_
  rw [if_pos rfl, hfresh, List.nil_append]

end Workspace

/-! ### Compilations -/

namespace UnitResult

variable {w : Workspace} {text : String} {before : List String}
  {linked : List Problem} {u : UnitResult}

theorem missing_of_share (hf : w.fetch u.source = none)
    (hp : u.problems = (w.share u.source).sink.problems u.source)
    (hr : u.roots = []) : u.Missing w := by
  refine ⟨hf, ⟨.missingUnit u.source, ?_, rfl, rfl⟩, hr⟩
  rw [hp, Workspace.share_of_missing hf]
  exact (Sink.problems_report _ _ _).trans (if_pos rfl)

theorem malformed_of_share (hf : w.fetch u.source = some text)
    {diagnostics : List Diagnostic}
    (ht : SourceTree.ofSource text = .error diagnostics)
    (hp : u.problems = (w.share u.source).sink.problems u.source)
    (hr : u.roots = []) : u.Malformed w (w.built before) := by
  have hall : u.problems = diagnostics.map (Problem.locate u.source text) := by
    rw [hp, Workspace.share_of_error hf ht]
    refine Sink.problems_foldl_report_own (fun p hm => ?_) .empty
    obtain ⟨d, -, rfl⟩ := List.mem_map.1 hm
    exact Problem.source_locate _ _ _
  obtain ⟨first, rest, hcons, -⟩ := SourceTree.fatal_of_ofSource ht
  have he := Event.ofSource_of_error ht
  refine ⟨⟨text, diagnostics, hf, he, hall, ?_⟩, ?_, fun p hm => ?_, hr⟩
  · exact (w.handedOut_built before).build_of_error (w.context _ text) he
  · rw [hall, hcons]
    exact List.cons_ne_nil _ _
  · rw [hall] at hm
    obtain ⟨d, hd, rfl⟩ := List.mem_map.1 hm
    unfold Problem.severity
    rw [Problem.diagnostic_locate]
    exact ⟨SourceTree.severity_of_ofSource ht d hd,
      category_of_ofSource ht d hd⟩

theorem built_of_share {c : Catalog} (hc : c.WellFormed)
    (hw : w.metamodel = c.metamodel) (hd : (before ++ [u.source]).Nodup)
    (hf : w.fetch u.source = some text) {tree : SourceTree}
    (ht : SourceTree.ofSource text = .ok tree)
    (hp : u.problems =
      (w.share u.source).sink.problems u.source ++ linked)
    (hl : ∀ p ∈ linked, p.severity = .error ∧
      p.diagnostic.category ≠ .syntaxError) :
    u.Built w (w.built before) linked := by
  have he : Event.ofSource text = .ok tree.events := by
    unfold Event.ofSource
    rw [ht]
    rfl
  obtain ⟨hfresh, hshare⟩ := Workspace.problems_build hd hf
  obtain ⟨d, hends, hleft⟩ :=
    Construction.ends_build (w.context u.source text) he hfresh
  have htold : ((w.built before).build (w.context u.source text)).2.sink.problems
      (w.context u.source text).unit.name = _ := hshare
  rw [htold] at hends
  refine ⟨⟨text, _, _, d, hf, he, hp, hends, hleft⟩, fun p hm => ?_,
    fun p hm => (hl p hm).1, ?_⟩
  · rw [hp] at hm
    rcases List.mem_append.1 hm with hm | hm
    · exact (Workspace.arises_share hc hw hf ht hm).category_ne_syntaxError
    · exact (hl p hm).2
  · have hlinks : linked.filter (·.severity.isFatal) = [] :=
      List.filter_eq_nil_iff.2 fun p hm => by
        simp [(hl p hm).1, Severity.isFatal]
    rw [hp, List.filter_append, hlinks, List.append_nil]
    exact hends.length_fatal_le

end UnitResult

/-- A result is made of what is known behind all units and of what the roll says
about its own unit. -/
theorem compile_rolls_at {m : Metamodel} {config : Config}
    {entries : List String} {sources : Sources} {r : Compilation}
    (hr : compile m config entries sources = .ok r)
    {before after : List UnitResult} {unit : UnitResult}
    (h : r.results = before ++ unit :: after) :
    let w := config.workspace m (m.supply sources).fetch
    let names := r.results.map (·.source)
    names.Nodup ∧
      names = before.map (·.source) ++ unit.source :: after.map (·.source) ∧
      unit = config.result unit.source
        (config.fatalScope.kept
          (w.endings unit.source (w.behind (before.map (·.source)) .empty)))
        ((w.built names).link.sink.problems unit.source) := by
  intro w names
  obtain ⟨layers, hl, -, hx⟩ := compile_rolls hr
  obtain ⟨layers', hl', hd, -⟩ := compile_layers hr
  cases hl.unique hl'
  have hnames : names = layers.flatten := by
    refine Eq.trans ?_ (w.map_fst_roll layers.flatten .empty)
    change r.results.map _ = _
    rw [hx, List.map_map]
    rfl
  refine ⟨hnames ▸ hd, ?_, ?_⟩
  · change r.results.map _ = _
    rw [h, List.map_append, List.map_cons]
  · rw [hx] at h
    obtain ⟨rolled, others, hroll, rfl, ho⟩ := List.map_eq_append_iff.1 h
    obtain ⟨⟨name, endings⟩, rest, rfl, rfl, rfl⟩ := List.map_eq_cons_iff.1 ho
    have he : endings =
        w.endings name (w.behind (rolled.map Prod.fst) .empty) :=
      w.endings_of_roll hroll
    rw [hnames, List.map_map, w.session_built]
    exact congrArg (fun endings => config.result name
      (config.fatalScope.kept endings) _) he

/-- **A fatal problem ends its unit and only its unit.** Every result of a
compilation is of exactly one of three kinds: the unit has no text; or its text
has not the right form; or it was built from its events, behind the units
before it, until a fatal fault ended them, and what its result lists behind
this fault are problems of its links. -/
theorem compile_unit_ends {s : Schema} {c : Catalog} (hc : s.catalog = .ok c)
    (config : Config) (entries : List String) (sources : Sources)
    {r : Compilation}
    (hr : compile c.metamodel config entries sources = .ok r) :
    let w := config.workspace c.metamodel (c.metamodel.supply sources).fetch
    let all := w.built (r.results.map (·.source))
    let linked :=
      (LinkRequest.outcomes all.graph all.requests).filterMap (·.problem?)
    ∀ before unit after, r.results = before ++ unit :: after →
      let behind := w.built (before.map (·.source))
      let own := linked.filter (·.source = unit.source)
      (unit.Missing w ∨ unit.Malformed w behind ∨ unit.Built w behind own) ∧
      ¬(unit.Missing w ∧ unit.Malformed w behind) ∧
      ¬(unit.Missing w ∧ unit.Built w behind own) ∧
      ¬(unit.Malformed w behind ∧ unit.Built w behind own) := by
  intro w all linked before unit after h behind own
  refine ⟨?_, fun ⟨hm, hf⟩ => hm.not_malformed hf,
    fun ⟨hm, hb⟩ => hm.not_built hb, fun ⟨hf, hb⟩ => hf.not_built hb⟩
  obtain ⟨hd, hnames, hunit⟩ := compile_rolls_at hr h
  have hm : unit.source ∈ r.results.map (·.source) := by
    rw [hnames]
    exact List.mem_append_right _ List.mem_cons_self
  have hproblems : unit.problems =
      (w.share unit.source).sink.problems unit.source ++ own :=
    (congrArg UnitResult.problems hunit).trans (Workspace.problems_link hd hm)
  have hown : (w.share unit.source).requests = [] → own = [] := fun hs =>
    Workspace.linked_eq_nil hs all.graph
  -- a unit that is not built has no element whose end could be reached
  have hroots : w.endings unit.source
      (w.behind (before.map (·.source)) .empty) = [] → unit.roots = [] := by
    intro he
    rw [hunit, he]
    unfold Config.result
    rw [show config.fatalScope.kept [] = [] by cases config.fatalScope <;> rfl]
    exact ite_self _
  cases hf : w.fetch unit.source with
  | none =>
    rw [hown (by rw [Workspace.share_of_missing hf]; rfl), List.append_nil]
      at hproblems
    refine .inl (UnitResult.missing_of_share hf hproblems (hroots ?_))
    unfold Workspace.endings
    rw [hf]
  | some text =>
    cases ht : SourceTree.ofSource text with
    | error diagnostics =>
      rw [hown (by rw [Workspace.share_of_error hf ht]; rfl), List.append_nil]
        at hproblems
      refine .inr (.inl (UnitResult.malformed_of_share hf ht hproblems
        (hroots ?_)))
      unfold Workspace.endings
      rw [hf]
      dsimp only
      unfold Session.endings
      rw [show SourceTree.ofSource (w.context unit.source text).unit.text = _
        from ht]
    | ok tree =>
      refine .inr (.inr (UnitResult.built_of_share (Schema.wellFormed_catalog hc)
        rfl ?_ hf ht hproblems fun p hp => ?_))
      · rw [hnames, ← List.singleton_append, ← List.append_assoc] at hd
        exact (List.nodup_append.1 hd).1
      · obtain ⟨o, ho, he⟩ := List.mem_filterMap.1 (List.mem_filter.1 hp).1
        refine ⟨Linking.severity_of_problem? (w.forest_built _).acyclic_heldBy
          (w.closed_built _).requests ho he, ?_⟩
        obtain ⟨fault, -, rfl⟩ := Linking.Outcome.problem?_eq_some.1 he
        exact fault.category_ne_syntaxError

/-- The first unit breaks off at its second element. The third one is not built
any more, and the link of the first one is told behind the fault. -/
theorem compile_unit_ends_first :
    let sources := ((NameMap.empty.insert "one" ("language shapes import two " ++
      "import three shape a \x7b next: c \x7d circle b shape c")).insert "two"
        "shape \x7b").sources
    ∃ c r one others own, Schema.shapes.catalog = .ok c ∧
      compile c.metamodel .default ["one"] sources = .ok r ∧
      r.results = one :: others ∧
      r.results.map (fun unit =>
        (unit.source, unit.problems.map (·.diagnostic.category))) =
          [("one", [.unknownElement, .unresolvedName]),
            ("two", [.syntaxError]), ("three", [.missingElement])] ∧
      r.graph.size = 1 ∧
      one.Built (Config.default.workspace c.metamodel
        (c.metamodel.supply sources).fetch) .new own := by
  intro sources
  obtain ⟨c, hc, hunits, hsize⟩ : ∃ c, Schema.shapes.catalog = .ok c ∧
      let r := compileUnits c.metamodel .default ["one"] sources
      r.results.map (fun unit =>
        (unit.source, unit.problems.map (·.diagnostic.category))) =
          [("one", [.unknownElement, .unresolvedName]),
            ("two", [.syntaxError]), ("three", [.missingElement])] ∧
      r.graph.size = 1 :=
    exists_ok_of_any (by decide +kernel)
  obtain ⟨one, others, hresults, hone, -⟩ := List.map_eq_cons_iff.1 hunits
  have hkinds := (Prod.mk.inj hone).2
  obtain ⟨hends, -⟩ := compile_unit_ends hc .default ["one"] sources rfl
    [] one others hresults
  rcases hends with ⟨-, ⟨p, hp, -⟩, -⟩ | ⟨-, -, hf, -⟩ | hb
  · rw [hp] at hkinds
    cases congrArg List.length hkinds
  · obtain ⟨p, rest, hp, hk, -⟩ := List.map_eq_cons_iff.1 hkinds
    have hsyntax := (hf p (hp ▸ List.mem_cons_self)).2
    rw [hk] at hsyntax
    cases hsyntax
  · exact ⟨c, _, one, others, _, hc, rfl, hresults, hunits, hsize, hb⟩

end ModelText
