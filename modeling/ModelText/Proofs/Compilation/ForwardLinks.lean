import ModelText.Metamodel.Checking
import ModelText.Proofs.Compilation.UnitEnds
import ModelText.Proofs.Construction.AlikeLinks
import ModelText.Proofs.Construction.AlikeUnits

/-!
# Links can be written anywhere in their element

Links are made when all units are built, so an element can refer to what is
declared behind the link. More than that, the place of a link among the members
of its element does not matter at all: with the link at any other place, other
links not passed over, the compilation gives the same graph and the same roots,
and tells the same problems in another order and at other places. The unit must
have no fatal problem, for a fatal problem leaves out what is written behind
it.
-/

namespace ModelText

/-- The texts of all units are the same but for one unit, whose second text has
one of its links moved among the members of its element. Where else the parts
of the second text stand does not matter. -/
structure LinkElsewhere (c : Catalog) (name : String)
    (fetch fetch' : String → Option String) : Prop where
  unit : ∃ text text' tree moved tree', fetch name = some text ∧
    fetch' name = some text' ∧ SourceTree.ofSource text = .ok tree ∧
    SourceTree.ofSource text' = .ok tree' ∧ tree.Moved c moved ∧
    tree'.unplaced = moved.unplaced
  others : ∀ other, other ≠ name → fetch' other = fetch other

/-! ### Units -/

namespace Workspace

variable {c : Catalog} {w : Workspace} {name : String}
  {fetch' : String → Option String} {s s' : Session}

/-- The same with other texts. -/
def withTexts (w : Workspace) (fetch' : String → Option String) : Workspace :=
  { w with fetch := fetch' }

theorem alike_unit (hm : w.metamodel = c.metamodel)
    (h : LinkElsewhere c name w.fetch fetch') (hs : s.Alike everywhere s')
    {other : String} (hf : other = name →
      (w.unit other s).2.sink.hasFatalIn other = false) :
    UnitsAlike (w.unit other s) ((w.withTexts fetch').unit other s')
      (w.endings other s) ((w.withTexts fetch').endings other s') := by
  by_cases ho : other = name
  · have hfatal := hf ho
    subst ho
    obtain ⟨text, text', tree, moved, tree', ht, ht', hx, hx', hmoved, hp⟩ :=
      h.unit
    unfold unit at hfatal ⊢
    unfold endings
    rw [ht] at hfatal ⊢
    rw [show (w.withTexts fetch').fetch other = _ from ht']
    have hc : (w.context other text).Alike
        ((w.withTexts fetch').context other text') := ⟨rfl, rfl, rfl⟩
    exact hs.walkUnit hc hx hx' (Item.forall₂_trans (hmoved.alike hm)
      (SourceTree.alike_of_unplaced hc hp)) (.inr hfatal)
  · unfold unit endings
    rw [show (w.withTexts fetch').fetch other = _ from h.others other ho]
    cases w.fetch other with
    | none => exact ⟨hs.report rfl, rfl, .nil⟩
    | some text => exact hs.walkUnit_self (w.context other text)

theorem imports_withTexts (hm : w.metamodel = c.metamodel)
    (h : LinkElsewhere c name w.fetch fetch')
    (hf : (w.share name).sink.hasFatalIn name = false) :
    (w.withTexts fetch').imports = w.imports := by
  funext other
  rw [← imports_unit _ _ .empty, ← imports_unit w _ .empty]
  refine (alike_unit hm h (.refl _ _) ?_).imports
  rintro rfl
  exact hf

/-- Units one behind another lead from alike sessions to alike sessions, and the
same elements come to their ends. -/
theorem alike_roll (hm : w.metamodel = c.metamodel)
    (h : LinkElsewhere c name w.fetch fetch')
    (hf : (w.share name).sink.hasFatalIn name = false) {names : List String}
    (hd : names.Nodup) (hn : ∀ other ∈ names, s.sink.problems other = [])
    (hs : s.Alike everywhere s') :
    (w.behind names s).Alike everywhere ((w.withTexts fetch').behind names s') ∧
      List.Forall₂
        (fun unit unit' => unit'.1 = unit.1 ∧
          List.Forall₂ Ending.Alike unit.2 unit'.2)
        (w.roll names s) ((w.withTexts fetch').roll names s') := by
  induction names generalizing s s' with
  | nil => exact ⟨hs, .nil⟩
  | cons first rest ih =>
    obtain ⟨hfirst, hd⟩ := List.nodup_cons.1 hd
    have hp : ∀ other, (w.unit first s).2.sink.problems other =
        if other = first then (w.share first).sink.problems first
        else s.sink.problems other := by
      intro other
      rw [w.session_unit]
      refine (Sink.problems_append _ _ _ _).trans ?_
      rw [hn first List.mem_cons_self, List.nil_append]
    have hu := alike_unit hm h hs fun (he : first = name) => by
      unfold Sink.hasFatalIn at hf ⊢
      rw [hp, if_pos rfl, he, hf]
    have hrest : ∀ other ∈ rest,
        (w.unit first s).2.sink.problems other = [] := by
      intro other ho
      rw [hp, if_neg (ne_of_mem_of_not_mem ho hfirst)]
      exact hn other (List.mem_cons_of_mem first ho)
    obtain ⟨hb, hr⟩ := ih hd hrest hu.session
    exact ⟨hb, .cons ⟨rfl, hu.endings⟩ hr⟩

end Workspace

/-! ### Roots -/

theorem Session.Alike.hasFatal {counts : ObjectId → Prop} {s s' : Session}
    (h : s.Alike counts s') : s'.sink.hasFatal = s.sink.hasFatal := by
  have hu : ∀ source, s'.sink.hasFatalIn source = s.sink.hasFatalIn source := by
    intro source
    have hp := congrArg (List.any · (·.severity.isFatal)) (h.problems source)
    rwa [List.any_map, List.any_map] at hp
  rw [Bool.eq_iff_iff, Sink.hasFatal_iff, Sink.hasFatal_iff]
  simp only [hu]

theorem FatalScope.kept_alike (scope : FatalScope)
    {endings endings' : List Ending}
    (h : List.Forall₂ Ending.Alike endings endings') :
    scope.kept endings' = scope.kept endings := by
  induction h with
  | nil => rfl
  | cons ha _ ih =>
    obtain ⟨ho, hs⟩ := ha
    cases scope with
    | unit => exact congrArg₂ List.cons ho ih
    | session =>
      unfold kept at ih ⊢
      dsimp only at ih ⊢
      rw [List.filter_cons, List.filter_cons, hs.hasFatal]
      split
      · exact congrArg₂ List.cons ho ih
      · exact ih

/-! ### Compilations -/

/-- Two results of a unit differ at most in the order and in the places of the
problems. -/
structure UnitResult.SameUpToPlaces (u u' : UnitResult) : Prop where
  source : u'.source = u.source
  roots : u'.roots = u.roots
  problems : (u'.problems.map Problem.unplaced).Perm
    (u.problems.map Problem.unplaced)

theorem Config.sameUpToPlaces_result (config : Config) (source : String)
    (roots : List ObjectId) {problems problems' : List Problem}
    (h : (problems'.map Problem.unplaced).Perm
      (problems.map Problem.unplaced)) :
    (config.result source roots problems).SameUpToPlaces
      (config.result source roots problems') where
  source := rfl
  roots := by
    have he := h.any_eq (f := (·.severity.isError))
    rw [List.any_map, List.any_map] at he
    have he : problems'.any (·.severity.isError) =
        problems.any (·.severity.isError) := he
    unfold Config.result
    rw [he]
  problems := h

/-- A unit without fatal problems in the end had none when it was built. -/
theorem share_of_hasFatal {m : Metamodel} {config : Config}
    {entries : List String} {sources : Sources} {r : Compilation}
    (hr : compile m config entries sources = .ok r) {unit : UnitResult}
    (hu : unit ∈ r.results) (hf : unit.hasFatal = false) :
    ((config.workspace m (m.supply sources).fetch).share
      unit.source).sink.hasFatalIn unit.source = false := by
  obtain ⟨before, after, h⟩ := List.append_of_mem hu
  obtain ⟨hd, hnames, hunit⟩ := compile_rolls_at hr h
  have hm : unit.source ∈ r.results.map (·.source) :=
    List.mem_map.2 ⟨unit, hu, rfl⟩
  have hp := (congrArg UnitResult.problems hunit).trans
    (Workspace.problems_link hd hm)
  unfold UnitResult.hasFatal at hf
  rw [hp, List.any_append, Bool.or_eq_false_iff] at hf
  exact hf.1

/-- **Links can be written anywhere in their element.** Take a compilation and
one of its units, which has no fatal problem, and move a link of a reference to
another place among the members of its element, over no other link. The
compilation of the result has the same graph, and each unit has the same roots,
and the same problems up to their order and places. -/
theorem compile_link_moved (c : Catalog) (config : Config)
    (entries : List String) {sources sources' : Sources} {r : Compilation}
    (hr : compile c.metamodel config entries sources = .ok r)
    {unit : UnitResult} (hu : unit ∈ r.results) (hf : unit.hasFatal = false)
    (hl : LinkElsewhere c unit.source (c.metamodel.supply sources).fetch
      (c.metamodel.supply sources').fetch) :
    ∃ r', compile c.metamodel config entries sources' = .ok r' ∧
      r'.graph = r.graph ∧
      List.Forall₂ UnitResult.SameUpToPlaces r.results r'.results := by
  obtain ⟨r', hr'⟩ := exists_compile hr rfl c.metamodel sources'
  have hshare := share_of_hasFatal hr hu hf
  obtain ⟨layers, hlayers, hg, hx⟩ := compile_rolls hr
  obtain ⟨layers', hlayers', hg', hx'⟩ := compile_rolls hr'
  have hd : layers.flatten.Nodup := by
    have hn := hlayers.nodup (by rw [List.nil_append]; exact NameSet.nodup _)
    rwa [List.nil_append] at hn
  -- the same units are imported, so the batches are the same
  cases (hlayers.of_imports
    (Workspace.imports_withTexts rfl hl hshare)).unique hlayers'
  obtain ⟨hsession, hroll⟩ := Workspace.alike_roll rfl hl hshare hd
    (fun _ _ => Sink.problems_empty _) (.refl _ .empty)
  obtain ⟨hgraph, hproblems⟩ := hsession.link
  refine ⟨r', hr', hg'.trans (hgraph.trans hg.symm), ?_⟩
  rw [hx, hx', List.forall₂_map_left_iff, List.forall₂_map_right_iff]
  refine hroll.imp fun unit unit' ⟨hs, he⟩ => ?_
  rw [hs, config.fatalScope.kept_alike he]
  exact config.sameUpToPlaces_result unit.1 _ (hproblems unit.1)

theorem compile_link_moved_shape :
    let parts : Feature := ⟨"parts", "Shape", false, true⟩
    let next : Feature := ⟨"next", "Shape", false, false⟩
    let shape : ObjectType :=
      ⟨"Shape", "shapes", false, true, .empty, [], [parts], [next]⟩
    let c : Catalog := ⟨.ofList ["shapes"],
      NameMap.empty.insert "Shape" (.object shape), .empty⟩
    let sources := (NameMap.empty.insert "main" ("language shapes shape a " ++
      "\x7b next: b parts \x7b shape b \x7d \x7d")).sources
    let sources' := (NameMap.empty.insert "main" ("language shapes\nshape a " ++
      "\x7b parts \x7b shape b \x7d\nnext: b \x7d")).sources
    ∃ r r', compile c.metamodel .default ["main"] sources = .ok r ∧
      compile c.metamodel .default ["main"] sources' = .ok r' ∧
      r.graph.targets ⟨0⟩ "next" = [⟨1⟩] ∧ r'.graph = r.graph ∧
      List.Forall₂ UnitResult.SameUpToPlaces r.results r'.results := by
  intro parts next shape c sources sources'
  have hunits : (compileUnits c.metamodel .default ["main"] sources).results.map
      (fun unit => (unit.source, unit.hasFatal)) = [("main", false)] := by
    decide +kernel
  have htargets : (compileUnits c.metamodel .default ["main"]
      sources).graph.targets ⟨0⟩ "next" = [⟨1⟩] := by
    decide +kernel
  obtain ⟨unit, rest, hresults, hunit, -⟩ := List.map_eq_cons_iff.1 hunits
  obtain ⟨hsource, hfatal⟩ := Prod.mk.inj hunit
  let header : Spanned String := ⟨"shape", 16, 21, by decide⟩
  let name : Spanned String := ⟨"a", 22, 23, by decide⟩
  let span : Span := ⟨16, 53, by decide⟩
  let link : Member :=
    .link ⟨"next", 26, 30, by decide⟩ ⟨["b"], 32, 33, by decide⟩
  let block : Member := .block ⟨"parts", 34, 39, by decide⟩
    [⟨[], ⟨"shape", 42, 47, by decide⟩, some ⟨"b", 48, 49, by decide⟩, [],
      42, 49, by decide⟩] ⟨40, 51, by decide⟩
  have hl : LinkElsewhere c unit.source (c.metamodel.supply sources).fetch
      (c.metamodel.supply sources').fetch := by
    rw [hsource]
    refine ⟨⟨_, _, ⟨[.language ⟨"shapes", 9, 15, by decide⟩,
        .declaration ⟨[], header, some name, [link, block], span⟩]⟩,
      ⟨[.language ⟨"shapes", 9, 15, by decide⟩,
        .declaration ⟨[], header, some name, [block, link], span⟩]⟩,
      _, rfl, rfl, by cbv, by cbv, ?_, ?_⟩, fun other ho => ?_⟩
    · have ht : c.lookup? (Text.capitalized "shape") =
          some (.object shape) := by
        decide +kernel
      have hr : shape.reference? "next" = some next := by
        decide
      refine @SourceTree.Moved.declaration c [_] [] _ _ (.here ht
        (.later [] [block] [] hr fun member hm => ?_))
      rw [List.mem_singleton.1 hm]
      rfl
    · cbv
    · rw [Metamodel.fetch_supply, Metamodel.fetch_supply]
      have hn : sources'.fetch other = sources.fetch other :=
        (NameMap.get?_insert _ _ _ _).trans ((if_neg ho).trans
          ((NameMap.get?_insert _ _ _ _).trans (if_neg ho)).symm)
      rw [hn]
  obtain ⟨r', hr', hg, hr⟩ := compile_link_moved c .default ["main"] rfl
    (hresults ▸ List.mem_cons_self) hfatal hl
  exact ⟨_, r', rfl, hr', htargets, hg, hr⟩

end ModelText
