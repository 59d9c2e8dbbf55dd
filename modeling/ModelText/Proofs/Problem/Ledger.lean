import ModelText.Problem.Sink
import ModelText.Proofs.NameMap
import ModelText.Proofs.NameSet

/-!
# The sink as a ledger

Problems are reported to a sink and taken out of it, source by source, in any
order. What is in it is told by the operations alone: a problem is in the sink
until its source is taken. `Operation.untaken` lists these problems in the order
of their reports, without a look at any sink, and `Sink.Balances` compares a sink
with this list: nothing is lost, nothing is there twice, sources stand in the
order of what is left, and only the memory of a fatal problem outlives a take.

The list is followed operation by operation: a report adds a problem behind it,
and a take strikes out those of one source.
-/

namespace ModelText.Sink

/-! ### Operations -/

/-- What is done with a sink. -/
inductive Operation where
  /-- A problem is reported. -/
  | report (problem : Problem)
  /-- The pending problems of a source are taken. -/
  | take (source : String)
  deriving DecidableEq

namespace Operation

/-- The problem that is reported, if one is. -/
def problem? : Operation → Option Problem
  | .report p => some p
  | .take _ => none

/-- The problems that are reported, in the order of the reports. -/
def reported (ops : List Operation) : List Problem := ops.filterMap problem?

/-- The reported problems whose source is not taken afterwards, in the order of
the reports. -/
def untaken : List Operation → List Problem
  | [] => []
  | .report p :: rest =>
    if .take p.source ∈ rest then untaken rest else p :: untaken rest
  | .take _ :: rest => untaken rest

theorem reported_append (ops more : List Operation) :
    reported (ops ++ more) = reported ops ++ reported more :=
  List.filterMap_append

theorem untaken_append_report (ops : List Operation) (p : Problem) :
    untaken (ops ++ [.report p]) = untaken ops ++ [p] := by
  induction ops with
  | nil => rfl
  | cons op rest ih =>
    cases op with
    | take source => exact ih
    | report q =>
      have hm : .take q.source ∈ rest ++ [.report p] ↔
          .take q.source ∈ rest := by simp
      rw [List.cons_append, untaken, untaken, ih]
      by_cases hq : .take q.source ∈ rest
      · rw [if_pos hq, if_pos (hm.2 hq)]
      · rw [if_neg hq, if_neg (hm.not.2 hq), List.cons_append]

theorem untaken_append_take (ops : List Operation) (source : String) :
    untaken (ops ++ [.take source]) =
      (untaken ops).filter (·.source != source) := by
  induction ops with
  | nil => rfl
  | cons op rest ih =>
    cases op with
    | take other => exact ih
    | report q =>
      rw [List.cons_append, untaken, untaken, ih]
      by_cases hq : .take q.source ∈ rest
      · rw [if_pos hq, if_pos (List.mem_append_left _ hq)]
      by_cases hs : q.source = source
      · rw [if_neg hq, if_pos (by simp [hs]),
          List.filter_cons_of_neg (by simp [hs])]
      · rw [if_neg hq, if_neg (by simp [hq, hs]),
          List.filter_cons_of_pos (by simp [hs])]

end Operation

open Operation

/-- The problems that an operation hands out, and the sink behind it. -/
def perform (s : Sink) : Operation → List Problem × Sink
  | .report p => ([], s.report p)
  | .take source => s.take source

/-- The sink after some operations. -/
def after (ops : List Operation) : Sink :=
  ops.foldl (fun s op => (s.perform op).2) .empty

/-- What the takes of a source hand out, one after the other, while operations
are performed on a sink. -/
def handedOut (source : String) : Sink → List Operation → List Problem
  | _, [] => []
  | s, op :: rest =>
    (if op = .take source then (s.perform op).1 else []) ++
      handedOut source (s.perform op).2 rest

theorem after_append_singleton (ops : List Operation) (op : Operation) :
    after (ops ++ [op]) = ((after ops).perform op).2 :=
  List.foldl_append

theorem handedOut_append_singleton (source : String) (ops : List Operation)
    (op : Operation) : handedOut source .empty (ops ++ [op]) =
      handedOut source .empty ops ++
        if op = .take source then ((after ops).perform op).1 else [] := by
  unfold after
  generalize Sink.empty = s
  induction ops generalizing s with
  | nil => simp [handedOut]
  | cons first rest ih =>
    rw [List.cons_append, handedOut, handedOut, ih, List.append_assoc,
      List.foldl_cons]

/-! ### The balance -/

/-- A sink holds what some operations leave in it: of each source the problems
that are not taken afterwards, and the sources in the order of these problems.
With what was handed out they are all that was reported. -/
structure Balances (s : Sink) (ops : List Operation) : Prop where
  problems : ∀ source, s.problems source =
    (untaken ops).filter (·.source = source)
  conserved : ∀ source, handedOut source .empty ops ++ s.problems source =
    (reported ops).filter (·.source = source)
  sources : s.sources =
    (NameSet.ofList ((untaken ops).map Problem.source)).toList
  size : s.size = (untaken ops).length
  fatalSeen : s.fatalSeen = true ↔ ∃ p ∈ reported ops, p.severity.isFatal

theorem size_take (s : Sink) (source : String) :
    (s.take source).2.size + (s.problems source).length = s.size :=
  s.pending.length_flatten_erase source

namespace Balances

variable {ops : List Operation}

theorem report (h : (after ops).Balances ops) (p : Problem) :
    ((after ops).report p).Balances (ops ++ [.report p]) where
  problems source := by
    rw [problems_report, untaken_append_report, List.filter_append, h.problems]
    by_cases hs : source = p.source
    · simp [hs]
    · simp [hs, Ne.symm hs]
  conserved source := by
    rw [handedOut_append_singleton, if_neg nofun, List.append_nil,
      problems_report, reported_append, List.filter_append, ← h.conserved]
    by_cases hs : source = p.source
    · simp [hs, reported, problem?]
    · simp [hs, Ne.symm hs, reported, problem?]
  sources := by
    rw [sources_report, untaken_append_report, List.map_append, h.sources]
    exact (NameSet.toList_ofList_append_singleton _ _).symm
  size := by
    rw [untaken_append_report, List.length_append, ← h.size]
    exact NameMap.length_flatten_update _ _ _
  fatalSeen := by
    rw [fatalSeen_report, Bool.or_eq_true, h.fatalSeen, reported_append]
    simp [reported, problem?, or_and_right, exists_or]

theorem take (h : (after ops).Balances ops) (source : String) :
    ((after ops).take source).2.Balances (ops ++ [.take source]) where
  problems other := by
    rw [problems_take, untaken_append_take, List.filter_filter, h.problems]
    by_cases ho : other = source
    · rw [if_pos ho]
      exact (List.filter_eq_nil_iff.2 fun p _ => by simp +contextual [ho]).symm
    · rw [if_neg ho]
      refine List.filter_congr fun p _ => ?_
      by_cases hp : p.source = other
      · simp [hp, ho]
      · simp [hp]
  conserved other := by
    rw [handedOut_append_singleton, problems_take, reported_append]
    change _ = ((reported ops ++ []).filter _)
    rw [List.append_nil, ← h.conserved]
    by_cases ho : other = source
    · simp [ho, perform, Sink.take]
    · simp [ho, Ne.symm ho]
  sources := by
    rw [sources_take, h.sources, untaken_append_take,
      ← NameSet.toList_ofList_filter, List.filter_map]
    rfl
  size := by
    have hsum := (after ops).size_take source
    have hsplit := List.length_eq_length_filter_add
      (l := untaken ops) (fun p => decide (p.source = source))
    rw [h.problems, h.size] at hsum
    have hrest : (untaken ops).filter (fun p => !decide (p.source = source)) =
        (untaken ops).filter (·.source != source) :=
      List.filter_congr fun p _ => by simp [bne, beq_eq_decide]
    rw [untaken_append_take, ← hrest]
    omega
  fatalSeen := by
    rw [fatalSeen_take, h.fatalSeen, reported_append]
    change _ ↔ ∃ p ∈ reported ops ++ [], _
    rw [List.append_nil]

end Balances

/-- Each operation keeps the balance, so any number of them does. -/
theorem balances_after (ops : List Operation) : (after ops).Balances ops := by
  induction ops using List.reverseRecOn with
  | nil =>
    refine ⟨fun _ => rfl, fun _ => rfl, rfl, rfl, ?_⟩
    simp [after, empty, reported]
  | append_singleton ops op ih =>
    rw [after_append_singleton]
    cases op with
    | report p => exact ih.report p
    | take source => exact ih.take source

/-! ### The account -/

/-- What a sink answers after some operations. It loses nothing and has nothing
twice; the sources are those with pending problems, each once; the size counts
what is pending; that something fatal was reported is told for ever, and all
other questions are about what is pending. -/
structure Accounts (s : Sink) (ops : List Operation) : Prop
    extends Balances s ops where
  nodup : s.sources.Nodup
  mem_sources : ∀ source, source ∈ s.sources ↔ s.problems source ≠ []
  isEmpty : s.isEmpty = true ↔ untaken ops = []
  hasFatalIn : ∀ source, s.hasFatalIn source = true ↔
    ∃ p ∈ untaken ops, p.source = source ∧ p.severity.isFatal
  hasErrorsIn : ∀ source, s.hasErrorsIn source = true ↔
    ∃ p ∈ untaken ops, p.source = source ∧ p.severity.isError

theorem isEmpty_iff_size (s : Sink) : s.isEmpty = true ↔ s.size = 0 := by
  rw [isEmpty, size, List.length_eq_zero_iff, List.flatten_eq_nil_iff,
    List.all_eq_true]
  simp only [List.isEmpty_iff]

namespace Balances

variable {s : Sink} {ops : List Operation} (h : s.Balances ops)

include h

theorem mem_sources (source : String) :
    source ∈ s.sources ↔ s.problems source ≠ [] := by
  rw [h.sources, h.problems, NameSet.mem_toList, NameSet.mem_ofList,
    List.mem_map, Ne, List.filter_eq_nil_iff]
  simp

theorem any_problems (source : String) (grave : Problem → Bool) :
    (s.problems source).any grave = true ↔
      ∃ p ∈ untaken ops, p.source = source ∧ grave p = true := by
  rw [h.problems, List.any_eq_true]
  simp [and_assoc]

end Balances

/-- Whatever is reported and taken, and in whatever order, the sink gives a true
account of it. -/
theorem accounts_after (ops : List Operation) : (after ops).Accounts ops :=
  have h := balances_after ops
  { h with
    nodup := h.sources ▸ NameSet.nodup _
    mem_sources := h.mem_sources
    isEmpty := by rw [isEmpty_iff_size, h.size, List.length_eq_zero_iff]
    hasFatalIn := fun source => h.any_problems source _
    hasErrorsIn := fun source => h.any_problems source _ }

end ModelText.Sink
