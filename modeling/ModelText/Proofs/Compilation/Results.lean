import ModelText.Compilation.Result
import ModelText.Proofs.Compilation.Units

/-!
# The results of units

When the links are made, every unit gets its roots and the problems that the
sink holds for it. No problem is left over, because every problem is one of a
unit that was built.
-/

namespace ModelText

namespace Config

theorem results_eq (config : Config) (built : List (String × List ObjectId))
    (hd : (built.map Prod.fst).Nodup) (sink : Sink) :
    (config.results built sink).1 = built.map fun unit =>
      config.result unit.1 unit.2 (sink.problems unit.1) := by
  induction built generalizing sink with
  | nil => rfl
  | cons unit rest ih =>
    obtain ⟨source, roots⟩ := unit
    obtain ⟨hn, hd⟩ := List.nodup_cons.1 hd
    have hr : (config.results rest (sink.take source).2).1 = rest.map fun unit =>
        config.result unit.1 unit.2 (sink.problems unit.1) := by
      rw [ih hd]
      refine List.map_congr_left fun other hm => ?_
      rw [Sink.problems_take, if_neg]
      intro hs
      exact hn (List.mem_map.2 ⟨other, hm, hs⟩)
    exact congrArg (config.result source roots (sink.problems source) :: ·) hr

theorem sources_results (config : Config)
    (built : List (String × List ObjectId)) (sink : Sink) :
    (config.results built sink).2.sources =
      sink.sources.filter (· ∉ built.map Prod.fst) := by
  induction built generalizing sink with
  | nil => exact (List.filter_eq_self.2 fun _ _ => rfl).symm
  | cons unit rest ih =>
    have hr : (config.results (unit :: rest) sink).2 =
        (config.results rest (sink.take unit.1).2).2 := rfl
    rw [hr, ih, Sink.sources_take, List.filter_filter]
    refine List.filter_congr fun other _ => ?_
    rw [List.map_cons]
    by_cases h : other = unit.1
    · simp [h]
    · simp [h, bne, Bool.and_comm]

end Config

theorem UnitResult.filter_source {results : List UnitResult}
    (hd : (results.map (·.source)).Nodup) {r : UnitResult}
    (hr : r ∈ results) : results.filter (·.source = r.source) = [r] := by
  induction results with
  | nil => cases hr
  | cons first rest ih =>
    obtain ⟨hn, hd⟩ := List.nodup_cons.1 hd
    rcases List.mem_cons.1 hr with rfl | hr
    · have hf : rest.filter (·.source = r.source) = [] := by
        rw [List.filter_eq_nil_iff]
        intro other ho hs
        exact hn (List.mem_map.2 ⟨other, ho, by simpa using hs⟩)
      rw [List.filter_cons_of_pos (by simp), hf]
    · have hs : first.source ≠ r.source := fun hs =>
        hn (List.mem_map.2 ⟨r, hr, hs.symm⟩)
      rw [List.filter_cons_of_neg (by simpa using hs), ih hd hr]

/-! ### Problems of links -/

namespace Linking

theorem problems_add (l : Linking) (r : LinkRequest) {source : String}
    (hs : r.source ≠ source) :
    (l.add r).sink.problems source = l.sink.problems source := by
  unfold add
  split
  · rfl
  · rw [Sink.problems_report, if_neg]
    exact fun h => hs h.symm

theorem problems_ofRequests {requests : List LinkRequest} {source : String}
    (h : ∀ r ∈ requests, r.source ≠ source) (graph : Graph) (sink : Sink) :
    (ofRequests requests graph sink).sink.problems source =
      sink.problems source := by
  have hl : ∀ l : Linking, (requests.foldl add l).sink.problems source =
      l.sink.problems source := by
    induction requests with
    | nil => exact fun _ => rfl
    | cons r rest ih =>
      intro l
      rw [List.foldl_cons, ih (fun r' hr' => h r' (List.mem_cons_of_mem r hr')),
        problems_add l r (h r List.mem_cons_self)]
  exact hl _

theorem sources_add (l : Linking) (r : LinkRequest) {source : String}
    (h : source ∈ (l.add r).sink.sources) :
    source = r.source ∨ source ∈ l.sink.sources := by
  unfold add at h
  split at h
  · exact .inr h
  · rw [Sink.sources_report] at h
    split at h
    · exact .inr h
    · rcases List.mem_append.1 h with h | h
      · exact .inr h
      · exact .inl (List.mem_singleton.1 h)

theorem sources_foldl_add (requests : List LinkRequest) (l : Linking)
    {source : String} (h : source ∈ (requests.foldl add l).sink.sources) :
    (∃ r ∈ requests, r.source = source) ∨ source ∈ l.sink.sources := by
  induction requests generalizing l with
  | nil => exact .inr h
  | cons r rest ih =>
    rcases ih (l.add r) h with ⟨r', hr', rfl⟩ | h
    · exact .inl ⟨r', List.mem_cons_of_mem r hr', rfl⟩
    · rcases sources_add l r h with rfl | h
      · exact .inl ⟨r, List.mem_cons_self, rfl⟩
      · exact .inr h

end Linking

namespace Progress

theorem Sound.sources_link {w : Workspace} {p : Progress} (h : Sound w p)
    {source : String} (hs : source ∈ p.construction.toSession.link.sink.sources) :
    source ∈ p.processed := by
  rcases Linking.sources_foldl_add _ _ hs with ⟨r, hr, rfl⟩ | hs
  · exact (h.requests r hr).1
  · exact h.sources source hs

/-- The units that were built take all problems. -/
theorem Sound.sources_results {w : Workspace} {p : Progress} (h : Sound w p)
    (config : Config) : (config.results p.built
      p.construction.toSession.link.sink).2.sources = [] := by
  rw [Config.sources_results, List.filter_eq_nil_iff]
  intro source hs
  have hp : source ∈ p.built.map Prod.fst := h.sources_link hs
  simp [hp]

/-- Each unit has its result, and there are no others. -/
theorem Sound.finish_eq {w : Workspace} {p : Progress} (h : Sound w p)
    (hd : p.processed.Nodup) (config : Config) :
    p.finish config =
      ⟨p.construction.toSession.link.graph,
        p.built.map fun unit => config.result unit.1 unit.2
          (p.construction.toSession.link.sink.problems unit.1)⟩ := by
  have hr := config.results_eq p.built hd p.construction.toSession.link.sink
  unfold finish
  simp only [h.sources_results, List.map_nil, Config.results, List.append_nil, hr]

theorem Sound.sources_finish {w : Workspace} {p : Progress} (h : Sound w p)
    (hd : p.processed.Nodup) (config : Config) :
    (p.finish config).results.map (·.source) = p.processed := by
  rw [h.finish_eq hd, List.map_map]
  rfl

/-- A unit without a text has one problem and no roots. -/
theorem Sound.result_of_missing {w : Workspace} {p : Progress}
    (h : Sound w p) (hd : p.processed.Nodup) (config : Config) {name : String}
    (hm : name ∈ p.processed) (hf : w.fetch name = none) :
    (p.finish config).results.filter (·.source = name) =
      [⟨name, [], [.missingUnit name]⟩] := by
  have hp : p.construction.toSession.link.sink.problems name =
      [.missingUnit name] := by
    refine (Linking.problems_ofRequests (fun r hr hs => ?_) _ _).trans ?_
    · obtain ⟨text, ht⟩ := (h.requests r hr).2
      rw [hs, hf] at ht
      cases ht
    · rw [h.problems, if_pos hm, Workspace.share_of_missing hf]
      exact (Sink.problems_report _ _ _).trans (if_pos rfl)
  obtain ⟨unit, hu, hs⟩ := List.mem_map.1 hm
  have hroots : unit.2 = [] := h.missing unit hu (hs ▸ hf)
  have hn := hd
  rw [← h.sources_finish hd config] at hn
  have hr : (⟨name, [], [.missingUnit name]⟩ : UnitResult) ∈
      (p.finish config).results := by
    rw [h.finish_eq hd]
    refine List.mem_map.2 ⟨unit, hu, ?_⟩
    rw [hs, hroots, hp]
    unfold Config.result
    rw [ite_self]
  exact UnitResult.filter_source hn hr

end Progress

end ModelText
