import ModelText.Proofs.Construction.Recovery

/-!
# Work that only fatal faults end

Building goes on behind a fault that is not fatal, so it matters where such a
fault can arise. Only a literal for a slot and the attachment of an element meet
them, and both recover from them on the spot; everything else is ended by fatal
faults alone.
-/

namespace ModelText

namespace Work

variable {σ α β : Type}

/-- No fault ends the work but a fatal one. -/
def OnlyFatal (work : Work σ α) : Prop :=
  ∀ s f t, work.exec s = (.error f, t) → f.value.severity.isFatal = true

theorem OnlyFatal.pure (a : α) : OnlyFatal (pure a : Work σ α) := by
  intro s f t h
  simp at h

theorem OnlyFatal.fail {fault : Fault} (h : fault.severity.isFatal = true)
    (span : Span) : OnlyFatal (fail fault span : Work σ α) := by
  intro s f t hf
  simp only [exec_fail, Prod.mk.injEq, Except.error.injEq] at hf
  rw [← hf.1]
  exact h

theorem OnlyFatal.ofExcept {result : Except Fault α} (span : Span)
    (h : ∀ fault, result = .error fault → fault.severity.isFatal = true) :
    OnlyFatal (ofExcept span result : Work σ α) := by
  cases result with
  | ok a => exact .pure a
  | error fault => exact .fail (h fault rfl) span

theorem OnlyFatal.bind {work : Work σ α} {next : α → Work σ β}
    (hw : OnlyFatal work) (hn : ∀ a, OnlyFatal (next a)) :
    OnlyFatal (work >>= next) := by
  intro s f t h
  rcases exec_bind_eq h with ⟨g, hr, hg⟩ | ⟨a, u, -, h⟩
  · cases hg
    exact hw s f t hr
  · exact hn a u f t h

theorem OnlyFatal.recoverBy {report : Spanned Fault → Work σ Unit}
    (hr : ∀ f, OnlyFatal (report f)) (work : Work σ Unit) :
    OnlyFatal (recoverBy report work) := by
  intro s f t h
  rcases hw : work.exec s with ⟨g | ⟨⟩, u⟩
  · cases hg : g.value.severity.isFatal with
    | true =>
      rw [exec_recoverBy_of_fatal hw hg] at h
      cases h
      exact hg
    | false =>
      rw [exec_recoverBy_of_error hw hg] at h
      exact hr g u f t h
  · rw [exec_recoverBy_of_ok hw] at h
    cases h

end Work

namespace SessionWork

open Work (OnlyFatal)

theorem onlyFatal_report (unit : SourceUnit) (f : Spanned Fault) :
    OnlyFatal (report unit f) := by
  intro s g t h
  simp [report] at h

theorem onlyFatal_recover (unit : SourceUnit) (work : SessionWork Unit) :
    OnlyFatal (recover unit work) :=
  .recoverBy (onlyFatal_report unit) work

end SessionWork

open SessionWork

theorem Work.OnlyFatal.composes (unit : SourceUnit) :
    Composes unit (·.severity.isFatal = true) fun ⦃_⦄ => OnlyFatal where
  done := .pure
  bind := .bind
  fail := .fail
  remark _ := onlyFatal_report _ _
  instantiate type isRoot := by
    intro s f t h
    simp [SessionWork.instantiate] at h
  change {_ f} h span := by
    intro s fault t hf
    cases hg : f s.graph with
    | ok graph =>
      rw [exec_change_of_ok hg] at hf
      cases hf
    | error e =>
      rw [exec_change_of_error hg] at hf
      cases hf
      exact h s.graph e hg
  defer request := by
    intro s f t h
    simp [SessionWork.defer] at h

/-- No work on an element is ended by a fault that is not fatal, whatever ends
the work that is recovered from. -/
theorem Work.OnlyFatal.recovering (unit : SourceUnit) :
    Recovering unit (fun ⦃_⦄ _ => True) fun ⦃_⦄ => OnlyFatal where
  inner := ⟨fun _ => trivial, fun _ _ => trivial, fun _ _ => trivial,
    fun _ => trivial, fun _ _ => trivial, fun _ _ => trivial,
    fun _ => trivial⟩
  outer := OnlyFatal.composes unit
  recover _ := onlyFatal_recover unit _
  weaken _ := trivial

end ModelText
