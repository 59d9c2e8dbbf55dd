import ModelText.Proofs.Compilation.Closure
import ModelText.Proofs.Construction.Endings
import Mathlib.Data.List.Forall2

/-!
# Roots of compiled units

Which elements become roots is decided twice: at the end of each element, by the
fatal problems so far, and when all links are made, by the errors of the unit.
Neither has an influence on anything else. So there is one roll of units and of
the elements in them that come to their ends, whatever the settings on roots
are, and the results of a compilation are this roll with those elements left
out that the settings keep from being roots.
-/

namespace ModelText

namespace Workspace

/-- The same with another fatal scope. -/
def inScope (w : Workspace) (scope : FatalScope) : Workspace :=
  { w with fatalScope := scope }

/-- The session behind units that are built one after another. -/
def behind (w : Workspace) (names : List String) (s : Session) : Session :=
  names.foldl (fun s name => (w.unit name s).2) s

/-- The elements at the top level of a unit whose end is reached, in order. -/
def endings (w : Workspace) (name : String) (s : Session) : List Ending :=
  match w.fetch name with
  | none => []
  | some text => s.endings (w.context name text)

/-- Units that are built one after another, each with the elements at its top
level whose end is reached. -/
def roll (w : Workspace) : List String → Session → List (String × List Ending)
  | [], _ => []
  | name :: rest, s =>
    (name, w.endings name s) :: w.roll rest (w.unit name s).2

variable (w : Workspace) (name : String)

theorem roots_eq_kept {s : Session} (hc : s.sink.Candid)
    (hf : s.sink.hasFatalIn name = false) :
    (w.unit name s).1.roots = w.fatalScope.kept (w.endings name s) := by
  unfold unit endings
  cases w.fetch name with
  | none => cases w.fatalScope <;> rfl
  | some text => exact Session.roots_eq_kept hc hf

/-- A unit of the roll comes to its ends behind the units before it. -/
theorem endings_of_roll {names : List String} {s : Session}
    {before after : List (String × List Ending)} {unit : String × List Ending}
    (h : w.roll names s = before ++ unit :: after) :
    unit.2 = w.endings unit.1 (w.behind (before.map Prod.fst) s) := by
  induction names generalizing s before with
  | nil => cases before <;> cases h
  | cons name rest ih =>
    cases before with
    | nil =>
      cases h
      rfl
    | cons first before =>
      obtain ⟨rfl, hr⟩ := List.cons.inj h
      have hu := ih hr
      exact hu

/-! ### Other scopes -/

variable (scope : FatalScope) (s : Session)

theorem session_inScope :
    ((w.inScope scope).unit name s).2 = (w.unit name s).2 := by
  unfold unit
  rw [show (w.inScope scope).fetch = w.fetch from rfl]
  cases w.fetch name with
  | none => rfl
  | some text => exact (s.walkUnit_inScope (w.context name text) scope).1

theorem imports_inScope : (w.inScope scope).imports name = w.imports name := by
  rw [← (w.inScope scope).imports_unit name .empty, ← w.imports_unit name .empty]
  unfold unit
  rw [show (w.inScope scope).fetch = w.fetch from rfl]
  cases w.fetch name with
  | none => rfl
  | some text =>
    exact (Session.empty.walkUnit_inScope (w.context name text) scope).2

theorem endings_inScope :
    (w.inScope scope).endings name s = w.endings name s := by
  unfold endings
  rw [show (w.inScope scope).fetch = w.fetch from rfl]
  cases w.fetch name with
  | none => rfl
  | some text => exact s.endings_inScope (w.context name text) scope

theorem behind_inScope (names : List String) :
    (w.inScope scope).behind names s = w.behind names s := by
  unfold behind
  simp only [session_inScope]

theorem roll_inScope (names : List String) :
    (w.inScope scope).roll names s = w.roll names s := by
  induction names generalizing s with
  | nil => rfl
  | cons name rest ih =>
    rw [roll, roll, endings_inScope, session_inScope, ih]

theorem Layers.inScope {w : Workspace} {seen batch : List String}
    {layers : List (List String)} (h : w.Layers seen batch layers)
    (scope : FatalScope) : (w.inScope scope).Layers seen batch layers :=
  h.of_imports (funext fun name => w.imports_inScope name scope)

end Workspace

/-! ### Building -/

namespace Progress

variable {w : Workspace} {p : Progress}

theorem session_addUnits (names : List String)
    (h : p.construction.HandedOut) :
    (names.foldl (addUnit w) p).construction.toSession =
      w.behind names p.construction.toSession := by
  induction names generalizing p with
  | nil => rfl
  | cons name rest ih =>
    rw [List.foldl_cons, ih (addUnit_added w h name).handedOut,
      session_addUnit w h]
    rfl

/-- The units that are built are on the roll. -/
theorem Sound.built_addUnits (h : Sound w p)
    (hc : p.construction.sink.Candid) {names : List String}
    (hd : (p.processed ++ names).Nodup) :
    (names.foldl (Progress.addUnit w) p).built = p.built ++
      (w.roll names p.construction.toSession).map fun unit =>
        (unit.1, w.fatalScope.kept unit.2) := by
  induction names generalizing p with
  | nil => exact (List.append_nil _).symm
  | cons name rest ih =>
    have hn := not_mem_of_nodup_append hd
    have hs := session_addUnit w h.handedOut name
    -- a unit that is not built yet has no problems
    have hf : p.construction.sink.hasFatalIn name = false := by
      unfold Sink.hasFatalIn
      rw [h.problems, if_neg hn]
      rfl
    have hc' : (p.addUnit w name).construction.sink.Candid := by
      rw [hs]
      exact (w.moves_unit name _).candid hc
    rw [List.foldl_cons, ih (h.addUnit hn) hc' (nodup_addUnit hd), hs,
      (addUnit_added w h.handedOut name).built, w.roots_eq_kept name hc hf,
      List.append_assoc]
    rfl

end Progress

/-! ### Compilations -/

theorem Config.sublist_roots {config config' : Config}
    (hs : config'.suppressRootsOnError = config.suppressRootsOnError)
    {roots roots' : List ObjectId} (h : roots.Sublist roots')
    (source : String) (problems : List Problem) :
    (config.result source roots problems).roots.Sublist
      (config'.result source roots' problems).roots := by
  unfold Config.result
  rw [hs]
  dsimp only
  split
  · exact .refl _
  · exact h

/-- Whether units are compiled depends on what is asked for only. -/
theorem exists_compile {m : Metamodel} {config : Config}
    {entries : List String} {sources : Sources} {r : Compilation}
    (hr : compile m config entries sources = .ok r) {config' : Config}
    (hi : config'.implicitBuiltIns = config.implicitBuiltIns) (m' : Metamodel)
    (sources' : Sources) :
    ∃ r', compile m' config' entries sources' = .ok r' := by
  unfold compile at hr ⊢
  rw [hi]
  split at hr
  · cases hr
  · exact ⟨_, if_neg ‹_›⟩

/-- A compilation is the roll of the units that it reaches, with the links
made. -/
theorem compile_rolls {m : Metamodel} {config : Config}
    {entries : List String} {sources : Sources} {r : Compilation}
    (hr : compile m config entries sources = .ok r) :
    let w := config.workspace m (m.supply sources).fetch
    ∃ layers, w.Layers [] (config.entries m entries) layers ∧
      let session := (w.behind layers.flatten .empty).link
      r.graph = session.graph ∧
        r.results = (w.roll layers.flatten .empty).map fun unit =>
          config.result unit.1 (config.fatalScope.kept unit.2)
            (session.sink.problems unit.1) := by
  intro w
  obtain ⟨layers, hl, hd, -, -, hg, hx⟩ := compile_layers hr
  rw [Progress.session_addUnits _ Construction.handedOut_new] at hg hx
  rw [(Progress.sound_start w).built_addUnits Sink.candid_empty hd] at hx
  exact ⟨layers, hl, hg, hx.trans List.map_map⟩

/-- The roots of a unit are the elements at its top level that came to their
ends, in order: under the scope of the session those that ended before any unit
had a fatal problem, under the scope of the unit all of them; but none where
roots are suppressed and the unit has errors in the end. With other settings on
roots there is the same graph, and there are the same units with the same
problems; and under the scope of the session no unit has roots that it would not
have under the scope of the unit. -/
theorem compile_root_gating (m : Metamodel) (config : Config)
    (entries : List String) (sources : Sources) {r : Compilation}
    (hr : compile m config entries sources = .ok r) :
    let w := config.workspace m (m.supply sources).fetch
    (∀ before unit after, r.results = before ++ unit :: after →
      unit.roots =
        if config.suppressRootsOnError && unit.hasErrors then []
        else config.fatalScope.kept (w.endings unit.source
          (w.behind (before.map (·.source)) .empty))) ∧
    ∀ scope suppress, ∃ r',
      compile m { config with
        fatalScope := scope, suppressRootsOnError := suppress }
        entries sources = .ok r' ∧
      r'.graph = r.graph ∧
      List.Forall₂ (fun unit unit' => unit'.source = unit.source ∧
        unit'.problems = unit.problems ∧
        (config.fatalScope = .session → scope = .unit →
          suppress = config.suppressRootsOnError →
          unit.roots.Sublist unit'.roots)) r.results r'.results := by
  intro w
  obtain ⟨layers, hl, hg, hx⟩ := compile_rolls hr
  constructor
  · intro before unit after h
    rw [hx] at h
    obtain ⟨rolled, others, hroll, rfl, ho⟩ := List.map_eq_append_iff.1 h
    obtain ⟨rolledUnit, rest, rfl, rfl, -⟩ := List.map_eq_cons_iff.1 ho
    rw [List.map_map]
    change (if _ then [] else _) = _
    rw [w.endings_of_roll hroll]
    rfl
  · intro scope suppress
    let config' : Config := { config with
      fatalScope := scope, suppressRootsOnError := suppress }
    have hi : config'.implicitBuiltIns = config.implicitBuiltIns := rfl
    obtain ⟨r', hr'⟩ := exists_compile hr hi m sources
    obtain ⟨layers', hl', hg', hx'⟩ := compile_rolls hr'
    -- imports do not depend on the settings, so the batches are the same
    cases (hl.inScope scope).unique hl'
    have hw : config'.workspace m (m.supply sources).fetch =
      w.inScope scope := rfl
    rw [hw, w.behind_inScope] at hg' hx'
    refine ⟨r', hr', hg'.trans hg.symm, ?_⟩
    rw [hx, hx', w.roll_inScope, List.forall₂_map_left_iff,
      List.forall₂_map_right_iff, List.forall₂_same]
    -- both compilations have their results from the same roll
    refine fun unit _ => ⟨rfl, rfl, fun hc hs hp => ?_⟩
    refine Config.sublist_roots hp ?_ _ _
    rw [hc]
    cases hs
    exact FatalScope.sublist_kept unit.2

/-- The first unit ends with its second element, of an unknown type. Under the
scope of the session the unit behind it has no roots. -/
theorem compile_root_gating_session :
    let sources := ((NameMap.empty.insert "one"
      "language shapes shape a circle b").insert "two"
        "language shapes shape c").sources
    let config : Config := { Config.default with fatalScope := .unit }
    ∃ c r r', Schema.shapes.catalog = .ok c ∧
      compile c.metamodel .default ["one", "two"] sources = .ok r ∧
      r.results.map (·.roots) = [[⟨0⟩], []] ∧
      compile c.metamodel config ["one", "two"] sources = .ok r' ∧
      r'.results.map (·.roots) = [[⟨0⟩], [⟨1⟩]] ∧
      r'.graph = r.graph := by
  intro sources config
  obtain ⟨c, hc, hr, hr'⟩ : ∃ c, Schema.shapes.catalog = .ok c ∧
      (compileUnits c.metamodel .default ["one", "two"] sources).results.map
        (·.roots) = [[⟨0⟩], []] ∧
      (compileUnits c.metamodel config ["one", "two"] sources).results.map
        (·.roots) = [[⟨0⟩], [⟨1⟩]] :=
    exists_ok_of_any (by decide +kernel)
  obtain ⟨r', hx, hg, -⟩ := (compile_root_gating c.metamodel .default
    ["one", "two"] sources rfl).2 .unit false
  cases hx
  exact ⟨c, _, _, hc, rfl, hr, rfl, hr', hg⟩

end ModelText
