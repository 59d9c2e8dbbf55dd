import ModelText.Proofs.Construction.Fatal
import ModelText.Proofs.Construction.UnitMoves
import ModelText.Proofs.NameMap

/-!
# Work that reports nothing fatal

A fatal fault ends the unit, and only then it is reported. So whatever the work
on an element reports by itself is a fault of its unit that is not fatal, also
if a fatal fault ends the work: between its start and its end no unit gets a
fatal problem. A unit as a whole tells such faults, and behind them the fatal
one at which it breaks off, if there is one.

That a fatal problem was reported is kept in a flag. Until problems are taken,
the flag says what the pending problems say.
-/

namespace ModelText

/-! ### Fatal problems -/

namespace Sink

variable {s t u : Sink}

/-- Whether a pending problem of some unit is fatal. -/
def hasFatal (s : Sink) : Bool := s.sources.any s.hasFatalIn

theorem hasFatal_iff :
    s.hasFatal = true ↔ ∃ source, s.hasFatalIn source = true := by
  unfold hasFatal
  rw [List.any_eq_true]
  refine ⟨fun ⟨source, _, h⟩ => ⟨source, h⟩, fun ⟨source, h⟩ => ?_⟩
  refine ⟨source, ?_, h⟩
  obtain ⟨p, hp, -⟩ := List.any_eq_true.1 h
  obtain ⟨problems, hg, -⟩ := NameMap.exists_of_mem_getD hp
  exact List.mem_map.2 ⟨_, NameMap.get?_eq_some_iff.1 hg, rfl⟩

/-- The flag says whether there is a fatal problem. -/
def Candid (s : Sink) : Prop := s.fatalSeen = true ↔ s.hasFatal = true

theorem candid_empty : empty.Candid := ⟨nofun, nofun⟩

theorem Candid.report (h : s.Candid) (p : Problem) : (s.report p).Candid := by
  unfold Candid at h ⊢
  rw [fatalSeen_report, Bool.or_eq_true, h, hasFatal_iff, hasFatal_iff]
  simp only [hasFatalIn_report, Bool.or_eq_true, Bool.and_eq_true, beq_iff_eq]
  constructor
  · rintro (⟨source, hs⟩ | hp)
    · exact ⟨source, .inl hs⟩
    · exact ⟨p.source, .inr ⟨rfl, hp⟩⟩
  · rintro ⟨source, hs | ⟨-, hp⟩⟩
    · exact .inl ⟨source, hs⟩
    · exact .inr hp

/-- Nothing fatal was reported between two sinks. -/
structure Calm (s t : Sink) : Prop where
  seen : t.fatalSeen = s.fatalSeen
  units : ∀ source, t.hasFatalIn source = s.hasFatalIn source

namespace Calm

theorem refl (s : Sink) : Calm s s := ⟨rfl, fun _ => rfl⟩

theorem trans (h : Calm s t) (h' : Calm t u) : Calm s u :=
  ⟨h'.seen.trans h.seen, fun source => (h'.units source).trans (h.units source)⟩

theorem report {p : Problem} (h : p.severity.isFatal = false) :
    Calm s (s.report p) where
  seen := by rw [fatalSeen_report, h, Bool.or_false]
  units source := by rw [hasFatalIn_report, h, Bool.and_false, Bool.or_false]

theorem candid (h : Calm s t) (hs : s.Candid) : t.Candid := by
  unfold Candid at hs ⊢
  rw [h.seen, hs, hasFatal_iff, hasFatal_iff]
  simp only [h.units]

end Calm

theorem calm_foldl_report {problems : List Problem}
    (h : ∀ p ∈ problems, p.severity.isFatal = false) (s : Sink) :
    s.Calm (problems.foldl report s) := by
  induction problems generalizing s with
  | nil => exact .refl s
  | cons p rest ih =>
    exact (Calm.report (h p List.mem_cons_self)).trans
      (ih (fun q hq => h q (List.mem_cons_of_mem p hq)) _)

end Sink

theorem Session.Moves.candid {m : Metamodel} {source : String}
    {s t : Session} (h : s.Moves m source t) (hs : s.sink.Candid) :
    t.sink.Candid := by
  induction h with
  | refl => exact hs
  | tail _ hm ih =>
    cases hm with
    | graph => exact ih
    | report => exact ih.report _
    | defer => exact ih

/-! ### Faults of a unit -/

/-- The problem that tells a fault of the unit. -/
def SourceUnit.problem (unit : SourceUnit) (f : Spanned Fault) : Problem :=
  .locate unit.name unit.text (Fault.diagnostic f)

theorem SourceUnit.severity_problem (unit : SourceUnit) (f : Spanned Fault) :
    (unit.problem f).severity = f.value.severity := by
  unfold problem Problem.severity
  rw [Problem.diagnostic_locate]
  rfl

/-- Faults of a text are reported one after another, and that is all. -/
theorem Session.foldl_reportIn (unit : SourceUnit)
    (diagnostics : List Diagnostic) (s : Session) :
    diagnostics.foldl (·.reportIn unit ·) s =
      { s with
        sink := (diagnostics.map (Problem.locate unit.name unit.text)).foldl
          Sink.report s.sink } := by
  induction diagnostics generalizing s with
  | nil => rfl
  | cons d rest ih => exact ih (s.reportIn unit d)

namespace Sink

variable {unit : SourceUnit} {s t u : Sink}

/-- Between two sinks, faults of a unit were reported that are not fatal, one
after another, and nothing else. -/
def Remarked (unit : SourceUnit) (s t : Sink) : Prop :=
  ∃ faults : List (Spanned Fault),
    (∀ f ∈ faults, f.value.severity.isFatal = false) ∧
    t = (faults.map unit.problem).foldl report s

namespace Remarked

theorem refl (unit : SourceUnit) (s : Sink) : Remarked unit s s :=
  ⟨[], nofun, rfl⟩

theorem trans (h : Remarked unit s t) (h' : Remarked unit t u) :
    Remarked unit s u := by
  obtain ⟨first, hf, rfl⟩ := h
  obtain ⟨second, hs, rfl⟩ := h'
  refine ⟨first ++ second, fun f hm => ?_, ?_⟩
  · exact (List.mem_append.1 hm).elim (hf f) (hs f)
  · rw [List.map_append, List.foldl_append]

theorem fault {f : Spanned Fault} (h : f.value.severity.isFatal = false)
    (s : Sink) : Remarked unit s (s.report (unit.problem f)) := by
  refine ⟨[f], fun g hg => ?_, rfl⟩
  rw [List.mem_singleton.1 hg]
  exact h

theorem calm (h : Remarked unit s t) : s.Calm t := by
  obtain ⟨faults, hn, rfl⟩ := h
  refine calm_foldl_report (fun p hp => ?_) s
  obtain ⟨f, hf, rfl⟩ := List.mem_map.1 hp
  rw [unit.severity_problem]
  exact hn f hf

end Remarked

end Sink

/-! ### Work -/

namespace Work

variable {α β : Type} {unit : SourceUnit} {work : SessionWork α}

/-- The work reports nothing but faults of a unit that are not fatal, also if a
fault ends it. -/
def Remarks (unit : SourceUnit) (work : SessionWork α) : Prop :=
  ∀ s r t, work.exec s = (r, t) → s.sink.Remarked unit t.sink

namespace Remarks

/-- Work that does not report. -/
theorem of_sink (h : ∀ s, (work.exec s).2.sink = s.sink) :
    Remarks unit work := by
  intro s r t ht
  have hs := h s
  rw [ht] at hs
  rw [hs]
  exact .refl unit _

theorem bind {next : α → SessionWork β} (hw : Remarks unit work)
    (hn : ∀ a, Remarks unit (next a)) : Remarks unit (work >>= next) := by
  intro s r t h
  rcases exec_bind_eq h with ⟨f, hr, -⟩ | ⟨a, u, hr, h⟩
  · exact hw s _ t hr
  · exact (hw s _ u hr).trans (hn a u r t h)

theorem report {f : Spanned Fault} (h : f.value.severity.isFatal = false) :
    Remarks unit (SessionWork.report unit f) := by
  rintro s r t ⟨⟩
  exact .fault h s.sink

/-- A fatal fault comes out of a recovery, and is not reported there. -/
theorem recover {work : SessionWork Unit} (h : Remarks unit work) :
    Remarks unit (SessionWork.recover unit work) := by
  intro s r t hr
  rcases SessionWork.exec_recover_eq hr with hw | ⟨f, u, hw, hf, -, rfl⟩
  · exact h s r t hw
  · exact (h s _ u hw).trans (.fault hf u.sink)

theorem change (attempt : Attempt) (span : Span)
    (f : Graph → Except Graph.Error Graph) :
    Remarks unit (SessionWork.change attempt span f) := by
  refine .of_sink fun s => ?_
  cases hg : f s.graph with
  | error e => rw [SessionWork.exec_change_of_error hg]
  | ok g => rw [SessionWork.exec_change_of_ok hg]

/-- Whatever faults end the work. -/
theorem composes (unit : SourceUnit) (allowed : Fault → Prop) :
    SessionWork.Composes unit allowed fun ⦃_⦄ => Remarks unit where
  done _ := .of_sink fun _ => rfl
  bind := .bind
  fail _ _ := .of_sink fun _ => rfl
  remark := .report
  instantiate _ _ := .of_sink fun _ => rfl
  change _ span := .change _ span _
  defer _ := .of_sink fun _ => rfl

theorem recovering (unit : SourceUnit) :
    SessionWork.Recovering unit (fun ⦃_⦄ => Remarks unit)
      fun ⦃_⦄ => Remarks unit where
  inner := composes unit _
  outer := composes unit _
  recover := .recover
  weaken := id

end Remarks

end Work

/-! ### Units -/

namespace Walk

theorem remarked_declareLanguage (w : Walk) (ctx : BuildContext)
    (name : Spanned String) :
    w.sink.Remarked ctx.unit (w.declareLanguage ctx name).sink := by
  unfold declareLanguage
  split
  · exact .refl _ _
  · dsimp only
    split
    · exact .fault rfl w.sink
    · exact .refl _ _

/-- A unit tells faults that are not fatal, and then the fatal one that ends it,
if there is one. -/
theorem sink_items (ctx : BuildContext) (items : List Item) (w : Walk) :
    ∃ (t : Sink) (last : Option (Spanned Fault)),
      w.sink.Remarked ctx.unit t ∧
      (∀ f ∈ last, f.value.severity.isFatal = true) ∧
      (Walk.items ctx items w).sink =
        (last.toList.map ctx.unit.problem).foldl Sink.report t := by
  induction items generalizing w with
  | nil => exact ⟨w.sink, none, .refl _ _, nofun, rfl⟩
  | cons item rest ih =>
    cases item with
    | language name =>
      obtain ⟨t, last, ht, hrest⟩ := ih (w.declareLanguage ctx name)
      exact ⟨t, last, (w.remarked_declareLanguage ctx name).trans ht, hrest⟩
    | importUnit name => exact ih { w with imports := w.imports.insert name.value }
    | declaration d =>
      rw [Walk.items]
      rcases hw : (d.walk ctx w.languages true).exec w.toSession
        with ⟨f | object, s⟩
      · have hs := (Work.Remarks.recovering ctx.unit).walk w.languages true d
          _ _ _ hw
        have hf := (Work.OnlyFatal.recovering ctx.unit).walk w.languages true d
          _ _ _ hw
        exact ⟨s.sink, some f, hs, fun g hg => Option.some.inj hg ▸ hf, rfl⟩
      · have hs := (Work.Remarks.recovering ctx.unit).walk w.languages true d
          _ _ _ hw
        obtain ⟨t, last, ht, hrest⟩ :=
          ih (({ w with toSession := s } : Walk).collect ctx object)
        rw [toSession_collect] at ht
        exact ⟨t, last, hs.trans ht, hrest⟩

end Walk

end ModelText
