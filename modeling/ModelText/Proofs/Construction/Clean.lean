import ModelText.Proofs.Construction.UnitMoves

/-!
# Sessions without errors

A session is clean when no problem that was reported to it is more than a
warning. Problems are never taken back while units are built, so a session that
is clean in the end was clean all the time. Whatever was only reported on the
way, or ended the work on a unit, was then at most a warning.
-/

namespace ModelText

/-- A fatal problem that was reported is still there. -/
def Sink.Remembers (s : Sink) : Prop :=
  s.fatalSeen = true → ∃ source, s.hasErrorsIn source = true

theorem Severity.isError_of_isFatal {s : Severity} (h : s.isFatal = true) :
    s.isError = true := by
  cases s with
  | fatal => rfl
  | warning | error => cases h

namespace Sink

variable {s : Sink}

theorem remembers_empty : empty.Remembers := fun h => by cases h

theorem Remembers.report (h : s.Remembers) (p : Problem) :
    (s.report p).Remembers := by
  intro hf
  rw [fatalSeen_report, Bool.or_eq_true] at hf
  rcases hf with hf | hf
  · obtain ⟨source, hs⟩ := h hf
    refine ⟨source, ?_⟩
    rw [hasErrorsIn_report, hs, Bool.true_or]
  · refine ⟨p.source, ?_⟩
    simp [hasErrorsIn_report, Severity.isError_of_isFatal hf]

end Sink

namespace Session

/-- No problem that was reported is more than a warning. -/
structure Clean (s : Session) : Prop where
  fatal : s.sink.fatalSeen = false
  errors : ∀ source, s.sink.hasErrorsIn source = false

variable {m : Metamodel} {source : String} {s t : Session}

theorem clean_of_remembers (h : s.sink.Remembers)
    (he : ∀ source, s.sink.hasErrorsIn source = false) : s.Clean := by
  refine ⟨Bool.eq_false_iff.2 fun hf => ?_, he⟩
  obtain ⟨source, hs⟩ := h hf
  rw [he] at hs
  cases hs

theorem Clean.of_report {p : Problem} (h : (s.report p).Clean) :
    s.Clean ∧ p.severity.isError = false := by
  have hf : (s.sink.fatalSeen || p.severity.isFatal) = false := h.fatal
  have he (other : String) : (s.sink.hasErrorsIn other ||
      (other == p.source && p.severity.isError)) = false := by
    rw [← Sink.hasErrorsIn_report]
    exact h.errors other
  refine ⟨⟨(Bool.or_eq_false_iff.1 hf).1, fun other => ?_⟩, ?_⟩
  · exact (Bool.or_eq_false_iff.1 (he other)).1
  · have hp := (Bool.or_eq_false_iff.1 (he p.source)).2
    rwa [beq_self_eq_true, Bool.true_and] at hp

theorem Clean.of_reportFault {unit : SourceUnit} {f : Spanned Fault}
    (h : (s.reportFault unit f).Clean) :
    s.Clean ∧ f.value.severity.isError = false := by
  obtain ⟨hs, hp⟩ := Clean.of_report h
  unfold Problem.severity at hp
  rw [Problem.diagnostic_locate] at hp
  exact ⟨hs, hp⟩

theorem Moves.clean (h : s.Moves m source t) (ht : t.Clean) : s.Clean := by
  induction h with
  | refl => exact ht
  | tail _ hm ih =>
    cases hm with
    | graph => exact ih ⟨ht.fatal, ht.errors⟩
    | report => exact ih ht.of_report.1
    | defer => exact ih ⟨ht.fatal, ht.errors⟩

theorem Moves.remembers (h : s.Moves m source t) (hs : s.sink.Remembers) :
    t.sink.Remembers := by
  induction h with
  | refl => exact hs
  | tail _ hm ih =>
    cases hm with
    | graph => exact ih
    | report => exact ih.report _
    | defer => exact ih

/-- Nothing keeps elements from becoming roots. -/
theorem Clean.acceptsRoots (h : s.Clean) (scope : FatalScope)
    (source : String) : s.acceptsRoots scope source = true := by
  cases scope with
  | session => simp [Session.acceptsRoots, h.fatal]
  | unit =>
    have he := h.errors source
    unfold Sink.hasErrorsIn at he
    unfold Session.acceptsRoots Sink.hasFatalIn
    rw [Bool.not_eq_true', List.any_eq_false]
    intro p hp hf
    exact List.any_eq_false.1 he p hp (Severity.isError_of_isFatal hf)

end Session

/-- Work whose faults are more than warnings met none if it was not told. -/
theorem SessionWork.exec_of_recover {unit : SourceUnit}
    {work : SessionWork Unit} {s t : Session}
    (hr : (recover unit work).exec s = (.ok (), t)) (ht : t.Clean)
    (he : ∀ f u, work.exec s = (.error f, u) →
      f.value.severity.isError = true) : work.exec s = (.ok (), t) := by
  rcases exec_recover_eq hr with hw | ⟨f, u, hw, -, -, rfl⟩
  · exact hw
  · have hn := ht.of_reportFault.2
    rw [he f u hw] at hn
    cases hn

end ModelText
