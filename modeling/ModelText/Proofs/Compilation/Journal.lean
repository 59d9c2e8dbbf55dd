import ModelText.Proofs.Compilation.Closure
import ModelText.Proofs.Construction.Calm
import ModelText.Proofs.Construction.LinkPass

/-!
# What is reported reaches the results

Problems are reported at many places: by the reader of a text, by the builder,
for a unit without a text, and by the pass over the links. On their way to the
results they wait in the sink, in groups. A `Journal` is kept beside the run: it
lists what is reported between two sessions, in the order of the reports, and it
follows the run move by move. The sink holds what the journal lists and nothing
else, so the results give back the journal: each result has the problems of its
own unit, in the order in which they were reported, and nothing is left behind.

What the journal lists of a unit is what the unit tells, and `Workspace.Tells`
says what that can be.
-/

namespace ModelText

/-- A list is made up of the parts of its keys. -/
theorem perm_flatMap_filter {α κ : Type} [DecidableEq κ] (key : α → κ)
    {keys : List κ} (hd : keys.Nodup) {list : List α}
    (h : ∀ x ∈ list, key x ∈ keys) :
    (keys.flatMap fun k => list.filter (key · = k)).Perm list := by
  induction keys generalizing list with
  | nil =>
    have hl : list = [] := List.eq_nil_iff_forall_not_mem.2 fun x hx =>
      List.not_mem_nil (h x hx)
    rw [hl]
    rfl
  | cons k rest ih =>
    obtain ⟨hk, hd⟩ := List.nodup_cons.1 hd
    have hrest : ∀ k' ∈ rest, list.filter (key · = k') =
        (list.filter fun x => !decide (key x = k)).filter (key · = k') := by
      intro k' hk'
      rw [List.filter_filter]
      refine List.filter_congr fun x _ => ?_
      by_cases hx : key x = k'
      · have hne : k' ≠ k := fun he => hk (he ▸ hk')
        simp [hx, hne]
      · simp [hx]
    rw [List.flatMap_cons, List.flatMap_congr hrest]
    refine .trans (.append_left _ (ih hd fun x hx => ?_))
      (List.filter_append_perm _ list)
    obtain ⟨hm, hne⟩ := List.mem_filter.1 hx
    refine (List.mem_cons.1 (h x hm)).resolve_left ?_
    simpa using hne

/-- Each unit has its problems in the order of the reports. -/
theorem Sink.problems_foldl_report (told : List Problem) (s : Sink)
    (source : String) : (told.foldl report s).problems source =
      s.problems source ++ told.filter (·.source = source) := by
  induction told generalizing s with
  | nil => exact (List.append_nil _).symm
  | cons p rest ih =>
    rw [List.foldl_cons, ih, problems_report]
    by_cases h : source = p.source
    · rw [if_pos h, List.filter_cons_of_pos (by simpa using h.symm),
        List.append_assoc]
      rfl
    · rw [if_neg h, List.filter_cons_of_neg (by simpa using Ne.symm h)]

/-- Problems of one unit are all there are of this unit. -/
theorem Problem.filter_source {told : List Problem} {source : String}
    (h : ∀ p ∈ told, p.source = source) :
    told.filter (·.source = source) = told :=
  List.filter_eq_self.2 fun p hp => by simpa using h p hp

theorem Problem.filter_source_eq_nil {told : List Problem} {source : String}
    (h : ∀ p ∈ told, p.source ≠ source) : told.filter (·.source = source) = [] :=
  List.filter_eq_nil_iff.2 fun p hp => by simpa using h p hp

/-- A unit has problems of its own at the end of those that it had. -/
theorem Sink.problems_foldl_report_own {told : List Problem} {source : String}
    (h : ∀ p ∈ told, p.source = source) (s : Sink) :
    (told.foldl report s).problems source = s.problems source ++ told := by
  rw [problems_foldl_report, Problem.filter_source h]

theorem Sink.isEmpty_of_sources {s : Sink} (h : s.sources = []) :
    s.isEmpty = true := by
  have he : s.pending.entries = [] := List.map_eq_nil_iff.1 h
  unfold isEmpty NameMap.values
  rw [he]
  rfl

/-! ### The journal of a unit -/

namespace Session

/-- What is reported between two sessions while a unit is built, move by move.
-/
inductive Journal (m : Metamodel) (source : String) :
    Session → List Problem → Session → Prop
  | start (s : Session) : Journal m source s [] s
  | quiet {s t u : Session} {told : List Problem}
      (h : Journal m source s told t) (hm : t.Move m source u)
      (hs : u.sink = t.sink) : Journal m source s told u
  | report {s t : Session} {told : List Problem}
      (h : Journal m source s told t) (p : Problem) (hp : p.source = source) :
      Journal m source s (told ++ [p]) (t.report p)

variable {m : Metamodel} {source : String} {s t : Session}
  {told told' : List Problem}

/-- A journal can be kept of all that building a unit does. -/
theorem Moves.journal (h : s.Moves m source t) :
    ∃ told, Journal m source s told t := by
  induction h with
  | refl => exact ⟨[], .start s⟩
  | tail _ hm ih =>
    obtain ⟨told, ih⟩ := ih
    cases hm with
    | graph hm => exact ⟨told, ih.quiet (.graph hm) rfl⟩
    | report p hp => exact ⟨told ++ [p], ih.report p hp⟩
    | defer r hr ht hf => exact ⟨told, ih.quiet (.defer _ r hr ht hf) rfl⟩

namespace Journal

theorem sink (h : Journal m source s told t) :
    t.sink = told.foldl Sink.report s.sink := by
  induction h with
  | start => rfl
  | quiet _ _ hs ih => exact hs.trans ih
  | report _ p _ ih =>
    rw [List.foldl_append, ← ih]
    rfl

theorem source_eq (h : Journal m source s told t) :
    ∀ p ∈ told, p.source = source := by
  induction h with
  | start => exact fun p hp => absurd hp List.not_mem_nil
  | quiet _ _ _ ih => exact ih
  | report _ p hs ih =>
    intro q hq
    rcases List.mem_append.1 hq with hq | hq
    · exact ih q hq
    · rw [List.mem_singleton.1 hq]
      exact hs

theorem problems (h : Journal m source s told t) :
    t.sink.problems source = s.sink.problems source ++ told := by
  rw [h.sink, Sink.problems_foldl_report_own h.source_eq]

/-- The sessions leave no choice in what the journal lists. -/
theorem unique (h : Journal m source s told t)
    (h' : Journal m source s told' t) : told = told' :=
  List.append_cancel_left (h.problems.symm.trans h'.problems)

end Journal

end Session

/-! ### What a unit tells -/

namespace Workspace

/-- What a unit tells before links are made. There is no text for it; or its text
has not the right form, and its reader tells what is wrong with it; or it is built,
and tells the faults that were met: those that are not fatal, and then the
fatal one that ended it, if there was one. -/
inductive Tells (w : Workspace) (name : String) : List Problem → Prop
  | missing (hf : w.fetch name = none) : Tells w name [.missingUnit name]
  | malformed {text : String} {diagnostics : List Diagnostic}
      (hf : w.fetch name = some text)
      (ht : SourceTree.ofSource text = .error diagnostics) :
      Tells w name (diagnostics.map (.locate name text))
  | built {text : String} {tree : SourceTree} {faults : List (Spanned Fault)}
      {last : Option (Spanned Fault)} (hf : w.fetch name = some text)
      (ht : SourceTree.ofSource text = .ok tree)
      (hn : ∀ f ∈ faults, f.value.severity.isFatal = false)
      (hl : ∀ f ∈ last, f.value.severity.isFatal = true) :
      Tells w name
        ((faults ++ last.toList).map (SourceUnit.problem ⟨name, text⟩))

variable {w : Workspace} {name : String} {s : Session} {told : List Problem}

theorem Tells.source_eq (h : w.Tells name told) :
    ∀ p ∈ told, p.source = name := by
  intro p hp
  cases h with
  | missing =>
    rw [List.mem_singleton.1 hp]
    rfl
  | malformed =>
    obtain ⟨d, -, rfl⟩ := List.mem_map.1 hp
    exact Problem.source_locate _ _ _
  | built =>
    obtain ⟨f, -, rfl⟩ := List.mem_map.1 hp
    exact Problem.source_locate _ _ _

/-- Building a unit reports what the unit tells. -/
theorem exists_tells (w : Workspace) (name : String) (s : Session) :
    ∃ told, w.Tells name told ∧
      (w.unit name s).2.sink = told.foldl Sink.report s.sink := by
  unfold unit
  cases hf : w.fetch name with
  | none => exact ⟨_, .missing hf, rfl⟩
  | some text =>
    dsimp only
    unfold Session.walkUnit
    cases ht : SourceTree.ofSource (w.context name text).unit.text with
    | error diagnostics =>
      refine ⟨_, .malformed hf ht, ?_⟩
      exact congrArg Session.sink (Session.foldl_reportIn _ diagnostics s)
    | ok tree =>
      obtain ⟨t, last, ⟨faults, hn, rfl⟩, hl, hs⟩ :=
        Walk.sink_items (w.context name text) tree.items ⟨s, .empty, .empty, []⟩
      refine ⟨_, .built hf ht hn hl, hs.trans ?_⟩
      rw [List.map_append, List.foldl_append]
      rfl

/-- The journal of a unit is what the unit tells. -/
theorem tells_of_journal
    (h : s.Journal w.metamodel name told (w.unit name s).2) :
    w.Tells name told := by
  obtain ⟨all, ht, hs⟩ := w.exists_tells name s
  have hp := h.problems
  rw [hs, Sink.problems_foldl_report_own ht.source_eq] at hp
  rw [← List.append_cancel_left hp]
  exact ht

end Workspace

/-! ### The journal of a compilation -/

namespace Progress

/-- What is reported while units are built, one behind another. -/
inductive Journal (w : Workspace) :
    Progress → List String → List Problem → Prop
  | done (p : Progress) : Journal w p [] []
  | unit {p : Progress} {name : String} {names : List String}
      {told others : List Problem}
      (h : p.construction.toSession.Journal w.metamodel name told
        (p.addUnit w name).construction.toSession)
      (hr : Journal w (p.addUnit w name) names others) :
      Journal w p (name :: names) (told ++ others)

variable {w : Workspace} {p : Progress} {names : List String}
  {told told' : List Problem}

theorem exists_journal (w : Workspace) (names : List String)
    (h : p.construction.HandedOut) : ∃ told, Journal w p names told := by
  induction names generalizing p with
  | nil => exact ⟨[], .done p⟩
  | cons name rest ih =>
    have hm := w.moves_unit name p.construction.toSession
    rw [← session_addUnit w h] at hm
    obtain ⟨told, ht⟩ := hm.journal
    obtain ⟨others, ho⟩ := ih (addUnit_added w h name).handedOut
    exact ⟨told ++ others, .unit ht ho⟩

namespace Journal

theorem sink (h : Journal w p names told) :
    (names.foldl (addUnit w) p).construction.sink =
      told.foldl Sink.report p.construction.sink := by
  induction h with
  | done => rfl
  | unit h _ ih =>
    rw [List.foldl_cons, ih, List.foldl_append]
    exact congrArg (List.foldl Sink.report · _) h.sink

theorem source_mem (h : Journal w p names told) :
    ∀ problem ∈ told, problem.source ∈ names := by
  induction h with
  | done => exact fun _ hp => absurd hp List.not_mem_nil
  | unit h _ ih =>
    intro problem hp
    rcases List.mem_append.1 hp with hp | hp
    · rw [h.source_eq problem hp]
      exact List.mem_cons_self
    · exact List.mem_cons_of_mem _ (ih problem hp)

theorem unique (h : Journal w p names told) (h' : Journal w p names told') :
    told = told' := by
  induction h generalizing told' with
  | done =>
    cases h'
    rfl
  | unit h _ ih =>
    cases h' with
    | unit h' hr' => rw [h.unique h', ih hr']

/-- The part of each unit is what the unit tells. -/
theorem tells (h : Journal w p names told) (hp : p.construction.HandedOut)
    (hd : names.Nodup) :
    ∀ name ∈ names, w.Tells name (told.filter (·.source = name)) := by
  induction h with
  | done => exact nofun
  | @unit p name names told others h hr ih =>
    obtain ⟨hname, hd⟩ := List.nodup_cons.1 hd
    have hown := h.source_eq
    rw [session_addUnit w hp] at h
    intro unit hm
    rw [List.filter_append]
    rcases List.mem_cons.1 hm with rfl | hm
    · have hothers : others.filter (·.source = unit) = [] :=
        Problem.filter_source_eq_nil fun q hq he =>
          hname (he ▸ hr.source_mem q hq)
      rw [Problem.filter_source hown, hothers, List.append_nil]
      exact Workspace.tells_of_journal h
    · have hfirst : told.filter (·.source = unit) = [] :=
        Problem.filter_source_eq_nil fun q hq he =>
          hname ((hown q hq).symm.trans he ▸ hm)
      rw [hfirst, List.nil_append]
      exact ih (addUnit_added w hp name).handedOut hd unit hm

end Journal

end Progress

/-! ### The results -/

namespace Progress

variable {w : Workspace} {p : Progress} {told : List Problem}

/-- The sink holds what the units told, and behind it what is told of the links.
-/
theorem Journal.sink_link {names : List String} (h : Journal w .start names told)
    (hp : p.construction = (names.foldl (addUnit w) .start).construction) :
    let s := p.construction.toSession
    s.link.sink = (told ++ (LinkRequest.outcomes s.graph s.requests).filterMap
      (·.problem?)).foldl Sink.report .empty := by
  intro s
  have hs : s.sink = told.foldl Sink.report .empty :=
    (congrArg (·.sink) hp).trans h.sink
  refine (Linking.sink_ofRequests s.requests s.graph s.sink).trans ?_
  rw [hs, ← List.foldl_append]

/-- Nothing is told but of units that were built. -/
theorem Journal.source_mem_processed (h : Journal w .start p.processed told)
    (hs : Sound w p) :
    let s := p.construction.toSession
    ∀ problem ∈ told ++
        (LinkRequest.outcomes s.graph s.requests).filterMap (·.problem?),
      problem.source ∈ p.processed := by
  intro s problem hm
  rcases List.mem_append.1 hm with hm | hm
  · exact h.source_mem problem hm
  · obtain ⟨o, ho, he⟩ := List.mem_filterMap.1 hm
    obtain ⟨fault, -, rfl⟩ := Linking.Outcome.problem?_eq_some.1 he
    exact (hs.requests _ (Linking.mem_outcomes ho).1).1

end Progress

/-- The state behind all units, from which the results are taken. -/
theorem compile_ends {m : Metamodel} {config : Config} {entries : List String}
    {sources : Sources} {r : Compilation}
    (hr : compile m config entries sources = .ok r) :
    let supply := m.supply sources
    let w := config.workspace m supply.fetch
    let p := w.build supply.importCount (config.entries m entries)
    p.processed.Nodup ∧ Progress.Sound w p ∧
      p.construction =
        (p.processed.foldl (Progress.addUnit w) .start).construction ∧
      r = p.finish config := by
  intro supply w p
  obtain ⟨layers, hl, hd, hsound, hn, -⟩ := compile_layers hr
  obtain ⟨layers', hl', hsame⟩ :=
    config.build_layers m entries sources (Nat.le_refl _)
  cases hl.unique hl'
  have hp : p.processed = layers.flatten :=
    (congrArg (List.map Prod.fst) hsame.built).trans hn
  refine ⟨?_, hsame.sound hsound, ?_, ?_⟩
  · rw [hp]
    exact hd
  · rw [hp]
    exact hsame.construction
  · unfold compile at hr
    split at hr
    · cases hr
    · cases hr
      rfl

/-- Results that have all problems of their units have all problems. -/
theorem Compilation.perm_problems {r : Compilation} {reported : List Problem}
    (hd : (r.results.map (·.source)).Nodup)
    (hm : ∀ problem ∈ reported, problem.source ∈ r.results.map (·.source))
    (hr : ∀ unit ∈ r.results,
      unit.problems = reported.filter (·.source = unit.source)) :
    r.problems.Perm reported := by
  have he : r.problems = (r.results.map (·.source)).flatMap fun source =>
      reported.filter (·.source = source) := by
    unfold problems
    rw [List.flatMap_map]
    exact List.flatMap_congr hr
  rw [he]
  exact perm_flatMap_filter (fun q : Problem => q.source) hd hm

/-- **Every problem reaches the result of its unit.** There is one journal of
the units that are built. The part of each unit in it is what this unit tells:
that there is no text for it, the diagnostics of its reader, or the faults met
while it was built. Behind the journal stand the problems of the links. The sink
holds what is so reported. Each result belongs to a unit that was built, and
has the problems of its unit in the order of the reports; all results together
have all problems. No problem is left in the sink when these units have taken
theirs, so no further result comes behind. A compilation has errors if one of
the problems that were reported is more than a warning. -/
theorem compile_hands_over (m : Metamodel) (config : Config)
    (entries : List String) (sources : Sources) {r : Compilation}
    (hr : compile m config entries sources = .ok r) :
    let supply := m.supply sources
    let w := config.workspace m supply.fetch
    let p := w.build supply.importCount (config.entries m entries)
    let s := p.construction.toSession
    let left := (config.results p.built s.link.sink).2
    ∃ told, Progress.Journal w .start p.processed told ∧
      (∀ other, Progress.Journal w .start p.processed other →
        other = told) ∧
      (∀ name ∈ p.processed,
        w.Tells name (told.filter (·.source = name))) ∧
      let reported := told ++
        (LinkRequest.outcomes s.graph s.requests).filterMap (·.problem?)
      s.link.sink = reported.foldl Sink.report .empty ∧
      (∀ problem ∈ reported, problem.source ∈ p.processed) ∧
      p.processed.Nodup ∧ r.results.map (·.source) = p.processed ∧
      (∀ unit ∈ r.results, unit.problems =
        reported.filter (·.source = unit.source)) ∧
      r.problems.Perm reported ∧
      left.sources = [] ∧ left.isEmpty = true ∧
      r.hasErrors = reported.any (·.severity.isError) := by
  intro supply w p s left
  obtain ⟨hd, hsound, hp, rfl⟩ := compile_ends hr
  obtain ⟨told, ht⟩ := Progress.exists_journal w p.processed
    (p := .start) Construction.handedOut_new
  refine ⟨told, ht, fun other ho => ho.unique ht,
    ht.tells Construction.handedOut_new hd, ?_⟩
  intro reported
  have hsink : s.link.sink = reported.foldl Sink.report .empty :=
    ht.sink_link hp
  have hmem : ∀ problem ∈ reported, problem.source ∈ p.processed :=
    ht.source_mem_processed hsound
  have hnames := hsound.sources_finish hd config
  have hunits : ∀ unit ∈ (p.finish config).results,
      unit.problems = reported.filter (·.source = unit.source) := by
    intro unit hu
    rw [hsound.finish_eq hd] at hu
    obtain ⟨built, -, rfl⟩ := List.mem_map.1 hu
    change s.link.sink.problems built.1 = _
    rw [hsink, Sink.problems_foldl_report]
    rfl
  have hall : (p.finish config).problems.Perm reported := by
    rw [← hnames] at hd hmem
    exact Compilation.perm_problems hd hmem hunits
  have hleft : left.sources = [] := hsound.sources_results config
  refine ⟨hsink, hmem, hd, hnames, hunits, hall, hleft,
    Sink.isEmpty_of_sources hleft, ?_⟩
  rw [← hall.any_eq]
  exact List.any_flatMap.symm

/-- The unit that is missed is told before the link, and its result comes behind
that of the unit with the link. -/
theorem compile_hands_over_main :
    let sources := (NameMap.empty.insert "main"
      "language shapes import lib shape a \x7b next: b \x7d").sources
    ∃ c r told links, Schema.shapes.catalog = .ok c ∧
      compile c.metamodel .default ["main"] sources = .ok r ∧
      r.results.map (fun unit => (unit.source, unit.problems.length)) =
        [("main", 1), ("lib", 1)] ∧
      (∀ name ∈ ["main", "lib"], (Config.default.workspace c.metamodel
        (c.metamodel.supply sources).fetch).Tells name
          (told.filter (·.source = name))) ∧
      r.problems.Perm (told ++ links) ∧
      (∀ unit ∈ r.results, unit.problems =
        (told ++ links).filter (·.source = unit.source)) ∧
      r.hasErrors = (told ++ links).any (·.severity.isError) := by
  intro sources
  obtain ⟨c, hc, hresults, hsources⟩ : ∃ c, Schema.shapes.catalog = .ok c ∧
      let r := compileUnits c.metamodel .default ["main"] sources
      r.results.map (fun unit => (unit.source, unit.problems.length)) =
        [("main", 1), ("lib", 1)] ∧
      r.results.map (·.source) = ["main", "lib"] :=
    exists_ok_of_any (by decide +kernel)
  obtain ⟨told, -, -, htells, -, -, -, hnames, hunits, hall, -, -, herrors⟩ :=
    compile_hands_over c.metamodel .default ["main"] sources rfl
  rw [← hnames, hsources] at htells
  exact ⟨c, _, told, _, hc, rfl, hresults, htells, hall, hunits, herrors⟩

end ModelText
