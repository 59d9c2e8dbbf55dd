import ModelText.Compilation.Closure
import ModelText.Proofs.Construction.Imports
import ModelText.Proofs.Construction.Refinement
import ModelText.Proofs.Construction.UnitMoves

/-!
# Units of a compilation

A unit of a compilation is built if there is a text for it, and missed
otherwise. In both cases it does to the session what it does to an empty
session: `w.unit name .empty` is its share of the session, and a compilation
puts the shares of its units one behind another.
-/

namespace ModelText

namespace Workspace

/-- What a unit does to a session. -/
def unit (w : Workspace) (name : String) (s : Session) :
    UnitOutcome × Session :=
  match w.fetch name with
  | none => (⟨[], []⟩, s.report (.missingUnit name))
  | some text => s.walkUnit (w.context name text)

/-- The share of a unit in the session. -/
def share (w : Workspace) (name : String) : Session := (w.unit name .empty).2

/-- The units that a unit imports. -/
def imports (w : Workspace) (name : String) : List String :=
  match w.fetch name with
  | none => []
  | some text => (w.context name text).imports

variable (w : Workspace) (name : String)

theorem imports_unit (s : Session) :
    (w.unit name s).1.imports = w.imports name := by
  unfold unit imports
  cases w.fetch name with
  | none => rfl
  | some text => exact s.imports_walkUnit _

theorem session_unit (s : Session) :
    (w.unit name s).2 = s.append name (w.share name) := by
  unfold share unit
  cases w.fetch name with
  | none =>
    have hp : (Problem.missingUnit name).source = name := rfl
    have hr := s.append_report .empty hp
    rw [Session.append_empty] at hr
    exact hr.symm
  | some text => exact (s.walkUnit_alone (w.context name text)).session

theorem roots_unit (s : Session) (hu : w.fatalScope = .unit)
    (hf : s.sink.hasFatalIn name = false) :
    (w.unit name s).1.roots =
      (w.unit name .empty).1.roots.map (ObjectId.shift s.graph.size) := by
  unfold unit
  cases w.fetch name with
  | none => rfl
  | some text => exact (s.walkUnit_alone (w.context name text)).roots hu hf

theorem moves_unit (s : Session) :
    s.Moves w.metamodel name (w.unit name s).2 := by
  unfold unit
  cases w.fetch name with
  | none => exact .single (.report _ _ rfl)
  | some text => exact s.moves_walkUnit (w.context name text)

theorem moves_share :
    Session.empty.Moves w.metamodel name (w.share name) :=
  w.moves_unit name .empty

theorem share_of_missing {w : Workspace} {name : String}
    (h : w.fetch name = none) :
    w.share name = Session.empty.report (.missingUnit name) := by
  unfold share unit
  rw [h]

end Workspace

/-- Links come from the unit that is built. -/
theorem Session.Moves.source_of_mem {m : Metamodel} {source : String}
    {s t : Session} (h : s.Moves m source t) {r : LinkRequest}
    (hr : r ∈ t.requests) : r ∈ s.requests ∨ r.source = source := by
  induction h with
  | refl => exact .inl hr
  | tail _ hm ih =>
    cases hm with
    | graph => exact ih hr
    | report => exact ih hr
    | defer r' hs _ _ =>
      rcases List.mem_append.1 hr with hr | hr
      · exact ih hr
      · rw [List.mem_singleton.1 hr]
        exact .inr hs

theorem Workspace.source_of_mem_share {w : Workspace} {name : String}
    {r : LinkRequest} (hr : r ∈ (w.share name).requests) : r.source = name := by
  rcases (w.moves_share name).source_of_mem hr with hr | hr
  · cases hr
  · exact hr

theorem Workspace.text_of_mem_share {w : Workspace} {name : String}
    {r : LinkRequest} (hr : r ∈ (w.share name).requests) :
    ∃ text, w.fetch name = some text := by
  cases hf : w.fetch name with
  | some text => exact ⟨text, rfl⟩
  | none =>
    rw [share_of_missing hf] at hr
    cases hr

namespace Progress

/-- What one more unit does to the progress. -/
structure Added (w : Workspace) (name : String) (p q : Progress) : Prop where
  handedOut : q.construction.HandedOut
  session : q.construction.toSession =
    p.construction.toSession.append name (w.share name)
  built : q.built =
    p.built ++ [(name, (w.unit name p.construction.toSession).1.roots)]
  discovered : q.discovered = p.discovered.insertAll (w.imports name)

theorem addUnit_added (w : Workspace) {p : Progress}
    (h : p.construction.HandedOut) (name : String) :
    Added w name p (p.addUnit w name) := by
  have hs := w.session_unit name p.construction.toSession
  have hi := w.imports_unit name p.construction.toSession
  unfold addUnit
  unfold Workspace.unit at hs hi
  cases hf : w.fetch name with
  | none =>
    rw [hf] at hs hi
    refine ⟨⟨h.imports, h.roots⟩, hs, ?_, ?_⟩
    · unfold Workspace.unit
      rw [hf]
    · rw [← hi]
      rfl
  | some text =>
    rw [hf] at hs hi
    obtain ⟨ho, hx⟩ := h.build_eq (w.context name text)
    refine ⟨p.construction.handedOut_build _, hx.trans hs, ?_, ?_⟩
    · unfold Workspace.unit
      rw [hf]
      exact congrArg (fun outcome => p.built ++ [(name, outcome.roots)]) ho
    · rw [← hi]
      exact congrArg (fun outcome => p.discovered.insertAll outcome.imports) ho

theorem session_addUnit (w : Workspace) {p : Progress}
    (h : p.construction.HandedOut) (name : String) :
    (p.addUnit w name).construction.toSession =
      (w.unit name p.construction.toSession).2 := by
  rw [(addUnit_added w h name).session, ← w.session_unit]

/-- What every unit keeps of a session, several units keep. -/
theorem units_keep {w : Workspace} {P : Session → Prop}
    (hP : ∀ name s, P s → P (w.unit name s).2) (names : List String)
    {p : Progress} (h : p.construction.HandedOut)
    (hp : P p.construction.toSession) :
    P (names.foldl (addUnit w) p).construction.toSession := by
  induction names generalizing p with
  | nil => exact hp
  | cons name rest ih =>
    apply ih (addUnit_added w h name).handedOut
    rw [session_addUnit w h]
    exact hP name _ hp

section

variable {w : Workspace} {name : String} {p q : Progress}
  (h : Added w name p q)

include h

theorem Added.graph : q.construction.graph =
    p.construction.graph.append (w.share name).graph := by
  rw [h.session]
  rfl

theorem Added.size : q.construction.graph.size =
    p.construction.graph.size + (w.share name).graph.size := by
  rw [h.graph, Graph.size_append]

theorem Added.problems (source : String) :
    q.construction.sink.problems source =
      if source = name then p.construction.sink.problems name ++
        (w.share name).sink.problems name
      else p.construction.sink.problems source := by
  rw [h.session]
  exact Sink.problems_append _ _ _ _

theorem Added.requests : q.construction.requests =
    p.construction.requests ++ (w.share name).requests.map
      (LinkRequest.rename (ObjectId.shift p.construction.graph.size)) := by
  rw [h.session]
  rfl

end

/-- What holds of the session while units are built. Units without problems or
links of their own are those that were not built. -/
structure Sound (w : Workspace) (p : Progress) : Prop where
  handedOut : p.construction.HandedOut
  problems : ∀ name, p.construction.sink.problems name =
    if name ∈ p.processed then (w.share name).sink.problems name else []
  sources : ∀ name ∈ p.construction.sink.sources, name ∈ p.processed
  requests : ∀ r ∈ p.construction.requests,
    r.source ∈ p.processed ∧ ∃ text, w.fetch r.source = some text
  missing : ∀ unit ∈ p.built, w.fetch unit.1 = none → unit.2 = []

theorem sound_start (w : Workspace) : Sound w start where
  handedOut := Construction.handedOut_new
  problems _ := rfl
  sources _ h := by cases h
  requests _ h := by cases h
  missing _ h := by cases h

theorem Sound.addUnit {w : Workspace} {p : Progress} (h : Sound w p)
    {name : String} (hn : name ∉ p.processed) :
    Sound w (p.addUnit w name) := by
  have ha := addUnit_added w h.handedOut name
  have hp : (p.addUnit w name).processed = p.processed ++ [name] :=
    p.processed_addUnit w name
  refine ⟨ha.handedOut, fun other => ?_, fun other ho => ?_, fun r hr => ?_,
    fun unit hm hf => ?_⟩
  · rw [ha.problems, hp]
    by_cases ho : other = name
    · subst ho
      have hs : p.construction.sink.problems other = [] := by
        rw [h.problems, if_neg hn]
      rw [if_pos rfl, if_pos (by simp), hs]
      rfl
    · rw [if_neg ho, h.problems]
      by_cases hm : other ∈ p.processed
      · rw [if_pos hm, if_pos (List.mem_append_left _ hm)]
      · rw [if_neg hm, if_neg (by simp [hm, ho])]
  · rw [ha.session] at ho
    rw [hp]
    rcases Sink.mem_sources_append ho with rfl | ho
    · simp
    · exact List.mem_append_left _ (h.sources other ho)
  · rw [ha.requests] at hr
    rw [hp]
    rcases List.mem_append.1 hr with hr | hr
    · obtain ⟨hs, ht⟩ := h.requests r hr
      exact ⟨List.mem_append_left _ hs, ht⟩
    · obtain ⟨r', hr', rfl⟩ := List.mem_map.1 hr
      have hs : r'.source = name := Workspace.source_of_mem_share hr'
      change r'.source ∈ _ ∧ ∃ text, w.fetch r'.source = some text
      rw [hs]
      exact ⟨by simp, Workspace.text_of_mem_share hr'⟩
  · rw [ha.built] at hm
    rcases List.mem_append.1 hm with hm | hm
    · exact h.missing unit hm hf
    · rw [List.mem_singleton.1 hm] at hf ⊢
      unfold Workspace.unit
      rw [hf]

/-! ### Several units -/

section

variable {w : Workspace} {p : Progress} {name : String} {names : List String}

theorem not_mem_of_nodup_append
    (hd : (p.processed ++ name :: names).Nodup) : name ∉ p.processed :=
  fun hm => (List.nodup_append.1 hd).2.2 name hm name List.mem_cons_self rfl

theorem nodup_addUnit (hd : (p.processed ++ name :: names).Nodup) :
    ((p.addUnit w name).processed ++ names).Nodup := by
  rw [processed_addUnit, List.append_assoc]
  exact hd

end

theorem Sound.addUnits {w : Workspace} {p : Progress} (h : Sound w p)
    {names : List String} (hd : (p.processed ++ names).Nodup) :
    Sound w (names.foldl (Progress.addUnit w) p) := by
  induction names generalizing p with
  | nil => exact h
  | cons name rest ih =>
    exact ih (h.addUnit (not_mem_of_nodup_append hd)) (nodup_addUnit hd)

end Progress

end ModelText
