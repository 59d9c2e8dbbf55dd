import ModelText.Proofs.Compilation.Closure
import ModelText.Proofs.Compilation.Conformance
import ModelText.Proofs.Construction.Faithful
import ModelText.Proofs.Construction.Linking

/-!
# Clean compilations lose nothing

A compilation without errors shows all declarations of all units it reaches.
While the units are built, the graph shows what was built so far, and the links
wait. Making them leaves alone what shows otherwise, and each of them leads to
its target, since a link that cannot be made is told.
-/

namespace ModelText

/-- What the graph shows when its links are made: they lead where their paths
lead, in order. -/
def Graph.view (g : Graph) : View where
  graph := g
  linked id feature paths :=
    List.Forall₂ (fun path target => g.resolve? id path = some target) paths
      (g.targets id feature)

/-! ### Links -/

namespace Graph

variable {g h k : Graph}

/-- Between the graphs links were made, each of them, in order. -/
structure Links (requests : List LinkRequest) (g h : Graph) : Prop where
  type? : ∀ id, h.type? id = g.type? id
  name? : ∀ id, h.name? id = g.name? id
  place? : ∀ id, h.place? id = g.place? id
  childrenOf : ∀ id feature, h.childrenOf id feature = g.childrenOf id feature
  elements : h.elements = g.elements
  resolve? : ∀ scope path, h.resolve? scope path = g.resolve? scope path
  targets : ∀ id feature, ∃ targets,
    List.Forall₂ (fun path target => g.resolve? id path = some target)
      (LinkRequest.paths requests id feature) targets ∧
    h.targets id feature = g.targets id feature ++ targets

theorem Links.refl (g : Graph) : Links [] g g where
  type? _ := rfl
  name? _ := rfl
  place? _ := rfl
  childrenOf _ _ := rfl
  elements := rfl
  resolve? _ _ := rfl
  targets _ _ := ⟨[], .nil, (List.append_nil _).symm⟩

theorem Links.trans {requests others : List LinkRequest}
    (hg : Links requests g h) (hh : Links others h k) :
    Links (requests ++ others) g k where
  type? id := (hh.type? id).trans (hg.type? id)
  name? id := (hh.name? id).trans (hg.name? id)
  place? id := (hh.place? id).trans (hg.place? id)
  childrenOf id feature :=
    (hh.childrenOf id feature).trans (hg.childrenOf id feature)
  elements := hh.elements.trans hg.elements
  resolve? scope path := (hh.resolve? scope path).trans (hg.resolve? scope path)
  targets id feature := by
    obtain ⟨targets, hf, ht⟩ := hg.targets id feature
    obtain ⟨targets', hf', ht'⟩ := hh.targets id feature
    refine ⟨targets ++ targets', ?_, ?_⟩
    · rw [LinkRequest.paths_append]
      apply List.rel_append hf
      simpa only [hg.resolve?] using hf'
    · rw [ht', ht, List.append_assoc]

theorem Links.placed {requests : List LinkRequest} (hl : Links requests g h)
    (hg : g.Placed) : h.Placed := by
  intro id feature child hm
  rw [hl.childrenOf] at hm
  rw [hl.place?]
  exact hg id feature child hm

/-- When all links are made, a view of those that wait is one of where they
lead. -/
theorem Links.agrees {s : Session} (hl : Links s.requests s.graph h)
    (hn : s.graph.Unlinked) (id : ObjectId) : s.view.Agrees h.view id where
  type type ht := (hl.type? id).trans ht
  name := hl.name? id
  held := hl.childrenOf id
  linked feature paths hp := by
    obtain ⟨targets, hf, ht⟩ := hl.targets id feature
    have hnone : s.graph.targets id feature = [] := by
      unfold Graph.targets
      cases ho : s.graph.object? id with
      | none => rfl
      | some o =>
        simp only [Option.map_some, Option.getD_some, Object.targets,
          hn id o ho]
        rfl
    have hpaths : LinkRequest.paths s.requests id feature = paths := hp
    rw [hnone, List.nil_append] at ht
    rw [hpaths] at hf
    change List.Forall₂ (fun path target => h.resolve? id path = some target)
      paths (h.targets id feature)
    rw [ht]
    simpa only [hl.resolve?] using hf

end Graph

namespace LinkRequest

theorem links_apply {r : LinkRequest} {g h : Graph} (ha : r.apply g = .ok h) :
    Graph.Links [r] g h := by
  obtain ⟨target, hr, hl⟩ := r.apply_eq_ok ha
  have hx : h = r.made g target := (Graph.link_eq_ok hl).2
  have hresolve (scope : ObjectId) (path : List String) :
      h.resolve? scope path = g.resolve? scope path := by
    have halike := (r.alike_made g target).resolve? scope path
    rw [Option.map_id_fun'] at halike
    rw [hx]
    exact halike
  constructor
  · intro id
    rw [hx]
    apply Graph.type?_update
    exact fun _ => rfl
  · intro id
    rw [hx]
    exact (r.alike_made g target).name? id
  · intro id
    rw [hx]
    apply Graph.place?_update
    exact fun _ => rfl
  · intro id feature
    rw [hx]
    apply Graph.childrenOf_update
    exact fun _ => rfl
  · rw [hx]
    apply Graph.elements_update
    exact fun _ => rfl
  · exact hresolve
  · intro id feature
    refine ⟨_, ?_, Graph.targets_link hl id feature⟩
    by_cases hid : r.scope = id ∧ r.reference.name = feature
    · obtain ⟨rfl, rfl⟩ := hid
      simp [paths, hr]
    · have hid' : ¬(id = r.scope ∧ feature = r.reference.name) :=
        fun hn => hid ⟨hn.1.symm, hn.2.symm⟩
      rw [if_neg hid']
      simp [paths, hid]

theorem isError_of_apply {r : LinkRequest} {g : Graph} {fault : Fault}
    (h : r.apply g = .error fault) : fault.severity.isError = true := by
  unfold apply at h
  split at h
  · cases h
    rfl
  · split at h
    · cases h
    · next e _ =>
      cases h
      cases e <;> rfl

end LinkRequest

/-- Links that cannot be made are told. -/
theorem Linking.links_foldl_add (requests : List LinkRequest) {l : Linking}
    (hc : ∀ source,
      (requests.foldl add l).sink.hasErrorsIn source = false) :
    Graph.Links requests l.graph (requests.foldl add l).graph ∧
      ∀ source, l.sink.hasErrorsIn source = false := by
  induction requests generalizing l with
  | nil => exact ⟨.refl _, hc⟩
  | cons r rest ih =>
    obtain ⟨hl, hs⟩ := ih hc
    rw [List.foldl_cons]
    unfold add at hl hs ⊢
    cases ha : r.apply l.graph with
    | error fault =>
      rw [ha] at hs
      have hn := hs r.source
      have he : (r.problem fault).severity.isError = true :=
        LinkRequest.isError_of_apply ha
      have hsource : (r.problem fault).source = r.source := rfl
      simp [Sink.hasErrorsIn_report, he, hsource] at hn
    | ok h =>
      rw [ha] at hl hs
      exact ⟨(LinkRequest.links_apply ha).trans hl, hs⟩

/-! ### Units -/

namespace Progress

variable {c : Catalog} {w : Workspace} {p : Progress}

/-- The units that were built are shown, `ids` giving the elements of each by
its name. -/
structure Shows (c : Catalog) (w : Workspace) (p : Progress)
    (ids : String → List ObjectId) : Prop where
  units : ∀ unit ∈ p.built, ∃ text, w.fetch unit.1 = some text ∧
    p.construction.toSession.view.ShowsText c text unit.2 (ids unit.1)
  elements : p.construction.graph.elements =
    p.built.flatMap fun unit => ids unit.1

/-- What moves keep of a session, several units keep. -/
theorem addUnits_keep {P : Session → Prop}
    (hP : ∀ name s t, s.Moves w.metamodel name t → P s → P t)
    (names : List String) (ho : p.construction.HandedOut)
    (hp : P p.construction.toSession) :
    P (names.foldl (Progress.addUnit w) p).construction.toSession :=
  units_keep (fun name s => hP name s _ (w.moves_unit name s)) names ho hp

theorem clean_of_addUnits {names : List String}
    (ho : p.construction.HandedOut)
    (hc : (names.foldl (Progress.addUnit w) p).construction.toSession.Clean) :
    p.construction.toSession.Clean := by
  by_contra hn
  have hm (name : String) (s t : Session) (hst : s.Moves w.metamodel name t)
      (hs : ¬s.Clean) : ¬t.Clean := fun ht => hs (hst.clean ht)
  exact addUnits_keep hm names ho hn hc

theorem Shows.addUnit {ids : String → List ObjectId} (h : Shows c w p ids)
    (hw : w.metamodel = c.metamodel) (ho : p.construction.HandedOut)
    (hs : p.construction.toSession.Closed) {name : String}
    (hn : name ∉ p.processed)
    (hc : (p.addUnit w name).construction.toSession.Clean) :
    ∃ ids, Shows c w (p.addUnit w name) ids := by
  have ha := addUnit_added w ho name
  have hx := session_addUnit w ho name
  have hb := ha.built
  rw [hx] at hc
  cases hf : w.fetch name with
  | none =>
    unfold Workspace.unit at hc
    rw [hf] at hc
    cases hc.of_report.2
  | some text =>
    have hunit : w.unit name p.construction.toSession =
        p.construction.toSession.walkUnit (w.context name text) := by
      unfold Workspace.unit
      rw [hf]
    rw [hunit] at hc hx hb
    obtain ⟨hspares, new, hnew, helements⟩ :=
      Session.shows_walkUnit (c := c) hw hs hc
    rw [← hx] at hspares hnew helements
    have hold : ∀ unit ∈ p.built,
        (if unit.1 = name then new else ids unit.1) = ids unit.1 := by
      intro unit hu
      rw [if_neg]
      rintro rfl
      exact hn (List.mem_map_of_mem hu)
    refine ⟨fun other => if other = name then new else ids other, ?_, ?_⟩
    · intro unit hu
      rw [hb] at hu
      rcases List.mem_append.1 hu with hu | hu
      · obtain ⟨found, hfound, hshown⟩ := h.units unit hu
        refine ⟨found, hfound, ?_⟩
        rw [hold unit hu]
        apply hshown.transport
        intro id hid
        apply hspares.agrees _ List.not_mem_nil
        rw [h.elements]
        exact List.mem_flatMap.2 ⟨unit, hu, hid⟩
      · rw [List.mem_singleton.1 hu, if_pos rfl]
        exact ⟨text, hf, hnew⟩
    · rw [helements, h.elements, hb, List.flatMap_append]
      congr 1
      · exact List.flatMap_congr fun unit hu => (hold unit hu).symm
      · simp

theorem shows_addUnits (hw : w.metamodel = c.metamodel) {names : List String}
    {ids : String → List ObjectId} (h : Shows c w p ids)
    (ho : p.construction.HandedOut) (hs : p.construction.toSession.Closed)
    (hd : (p.processed ++ names).Nodup)
    (hc : (names.foldl (Progress.addUnit w) p).construction.toSession.Clean) :
    ∃ ids, Shows c w (names.foldl (Progress.addUnit w) p) ids := by
  induction names generalizing p ids with
  | nil => exact ⟨ids, h⟩
  | cons name rest ih =>
    have ho' := (addUnit_added w ho name).handedOut
    have hs' : (p.addUnit w name).construction.toSession.Closed := by
      rw [session_addUnit w ho]
      exact (w.moves_unit name _).closed hs
    obtain ⟨ids', h'⟩ := h.addUnit hw ho hs (not_mem_of_nodup_append hd)
      (clean_of_addUnits ho' hc)
    exact ih h' ho' hs' (nodup_addUnit hd) hc

theorem shows_start (c : Catalog) (w : Workspace) :
    Shows c w .start fun _ => [] where
  units _ hu := by cases hu
  elements := rfl

/-- Units that were not built have no problems. -/
theorem Sound.errors_link (h : Sound w p)
    (hc : ∀ unit ∈ p.built,
      p.construction.toSession.link.sink.hasErrorsIn unit.1 = false)
    (source : String) :
    p.construction.toSession.link.sink.hasErrorsIn source = false := by
  by_cases hs : source ∈ p.processed
  · obtain ⟨unit, hu, rfl⟩ := List.mem_map.1 hs
    exact hc unit hu
  · have hr : ∀ r ∈ p.construction.requests, r.source ≠ source := by
      rintro r hr rfl
      exact hs (h.requests r hr).1
    have hp : p.construction.toSession.link.sink.problems source = [] := by
      refine (Linking.problems_ofRequests hr _ _).trans ?_
      rw [h.problems, if_neg hs]
    unfold Sink.hasErrorsIn
    rw [hp]
    rfl

end Progress

/-! ### Compilations -/

theorem UnitResult.roots_of_clean {config : Config} {source : String}
    {roots : List ObjectId} {problems : List Problem}
    (h : (config.result source roots problems).hasErrors = false) :
    (config.result source roots problems).roots = roots := by
  have hp : problems.any (·.severity.isError) = false := h
  unfold Config.result
  rw [hp, Bool.and_false]
  rfl

/-- A compilation without errors loses nothing. Every unit it reaches has its
result; the roots of that are the elements of the declarations at the top level;
and what is declared inside an element is held by it, under the feature of its
block and in the order written. The links of each reference lead to one target
each, in order. Every declaration has an element of its own, and no other
elements are there. -/
theorem compile_faithful (c : Catalog) (config : Config)
    (entries : List String) (sources : Sources) {r : Compilation}
    (hr : compile c.metamodel config entries sources = .ok r)
    (hn : r.hasErrors = false) :
    let w := config.workspace c.metamodel (c.metamodel.supply sources).fetch
    (∀ name, name ∈ r.results.map (·.source) ↔
      w.Reaches (config.entries c.metamodel entries) name) ∧
    (r.results.map (·.source)).Nodup ∧
    (∃ ids : String → List ObjectId,
      (∀ result ∈ r.results, ∃ text, w.fetch result.source = some text ∧
        r.graph.view.ShowsText c text result.roots (ids result.source)) ∧
      r.graph.elements = r.results.flatMap fun result => ids result.source) ∧
    r.graph.elements.Nodup ∧
    ∀ id feature, ∀ child ∈ r.graph.childrenOf id feature,
      r.graph.place? child = some ⟨id, feature⟩ := by
  intro w
  obtain ⟨names, hd, hreaches, hsound, hp, hgraph, hresults⟩ :=
    compile_builds hr
  set p := names.foldl (Progress.addUnit w) .start
  have hsource : r.results.map (·.source) = names := by
    rw [hresults, List.map_map]
    exact hp
  have hresult : ∀ result ∈ r.results, result.hasErrors = false := by
    intro result hu
    exact Bool.eq_false_iff.2 fun he =>
      Bool.eq_false_iff.1 hn (List.any_eq_true.2 ⟨result, hu, he⟩)
  have herrors := hsound.errors_link fun unit hu => by
    have hm : config.result unit.1 unit.2
        (p.construction.toSession.link.sink.problems unit.1) ∈ r.results := by
      rw [hresults]
      exact List.mem_map_of_mem hu
    exact hresult _ hm
  -- Problems of links come last, so the session was clean before.
  obtain ⟨hlinks, hbefore⟩ := Linking.links_foldl_add p.construction.requests
    (l := ⟨p.construction.graph, p.construction.sink, 0⟩) herrors
  have hclean : p.construction.toSession.Clean := by
    apply Session.clean_of_remembers _ hbefore
    exact Progress.addUnits_keep (P := fun s => s.sink.Remembers)
      (fun _ _ _ h => h.remembers) names Construction.handedOut_new
      Sink.remembers_empty
  have hclosed : p.construction.toSession.Closed :=
    Progress.addUnits_keep (fun _ _ _ h => h.closed) names
      Construction.handedOut_new Session.closed_empty
  have hplaced : p.construction.graph.Placed :=
    Progress.addUnits_keep (P := fun s => s.graph.Placed)
      (fun _ _ _ h => h.placed) names Construction.handedOut_new
      Graph.placed_empty
  obtain ⟨ids, hshows⟩ := Progress.shows_addUnits (w := w) rfl
    (Progress.shows_start c w) Construction.handedOut_new Session.closed_empty
    hd hclean
  rw [hsource]
  refine ⟨hreaches, hd, ⟨ids, fun result hu => ?_, ?_⟩, Graph.nodup_elements _,
    ?_⟩
  · have hnone := hresult result hu
    rw [hresults] at hu
    obtain ⟨unit, hm, rfl⟩ := List.mem_map.1 hu
    obtain ⟨text, hf, hshown⟩ := hshows.units unit hm
    rw [UnitResult.roots_of_clean hnone, hgraph]
    exact ⟨text, hf, hshown.transport fun id _ =>
      hlinks.agrees hclosed.unlinked id⟩
  · rw [hgraph, hresults, List.flatMap_map]
    exact hlinks.elements.trans hshows.elements
  · rw [hgraph]
    exact hlinks.placed hplaced

theorem compile_faithful_main :
    let text := "language shapes\nshape a \x7b parts \x7b shape b shape c " ++
      "\x7d next: b parts \x7b shape d \x7d \x7d"
    let sources := (NameMap.empty.insert "main" text).sources
    ∃ c r, Schema.shapes.catalog = .ok c ∧
      compile c.metamodel .default ["main"] sources = .ok r ∧
      r.hasErrors = false ∧ r.graph.elements = [⟨0⟩, ⟨1⟩, ⟨2⟩, ⟨3⟩] ∧
      r.graph.childrenOf ⟨0⟩ "parts" = [⟨1⟩, ⟨2⟩, ⟨3⟩] ∧
      r.graph.targets ⟨0⟩ "next" = [⟨1⟩] ∧
      r.graph.place? ⟨3⟩ = some ⟨⟨0⟩, "parts"⟩ := by
  intro text sources
  obtain ⟨c, hc, hn, helements, hheld, htargets⟩ :
      ∃ c, Schema.shapes.catalog = .ok c ∧
      let r := compileUnits c.metamodel .default ["main"] sources
      r.hasErrors = false ∧ r.graph.elements = [⟨0⟩, ⟨1⟩, ⟨2⟩, ⟨3⟩] ∧
      r.graph.childrenOf ⟨0⟩ "parts" = [⟨1⟩, ⟨2⟩, ⟨3⟩] ∧
      r.graph.targets ⟨0⟩ "next" = [⟨1⟩] :=
    exists_ok_of_any (by decide +kernel)
  obtain ⟨-, -, -, -, hplaced⟩ :=
    compile_faithful c .default ["main"] sources rfl hn
  refine ⟨c, _, hc, rfl, hn, helements, hheld, htargets,
    hplaced ⟨0⟩ "parts" ⟨3⟩ ?_⟩
  rw [hheld]
  decide

end ModelText
