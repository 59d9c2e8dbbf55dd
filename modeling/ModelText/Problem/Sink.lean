import ModelText.NameMap
import ModelText.Problem.Basic

/-!
# Problems by unit

A `Sink` keeps the problems of a compilation, unit by unit, until they are
taken. Units stand in the order of their first problem, and the problems of a
unit in the order of their report. That a fatal problem was reported is never
forgotten, even after it was taken.
-/

namespace ModelText

/-- The problems that were reported and not yet taken. -/
structure Sink where
  /-- The pending problems of each unit. -/
  pending : NameMap (List Problem)
  /-- Whether a fatal problem was ever reported. -/
  fatalSeen : Bool

namespace Sink

/-- The sink to which nothing was reported. -/
def empty : Sink := ⟨.empty, false⟩

instance : Inhabited Sink := ⟨empty⟩

/-- Adds a problem behind the others of its unit. -/
def report (s : Sink) (p : Problem) : Sink where
  pending := s.pending.update p.source fun problems => problems.getD [] ++ [p]
  fatalSeen := s.fatalSeen || p.severity.isFatal

/-- The pending problems of a unit. -/
def problems (s : Sink) (source : String) : List Problem :=
  (s.pending.get? source).getD []

/-- Takes the pending problems of a unit out of the sink. -/
def take (s : Sink) (source : String) : List Problem × Sink :=
  (s.problems source, { s with pending := s.pending.erase source })

/-- Whether a pending problem of a unit is fatal. -/
def hasFatalIn (s : Sink) (source : String) : Bool :=
  (s.problems source).any (·.severity.isFatal)

/-- Whether a pending problem of a unit is more than a warning. -/
def hasErrorsIn (s : Sink) (source : String) : Bool :=
  (s.problems source).any (·.severity.isError)

/-- The units with pending problems, in the order of their first one. -/
def sources (s : Sink) : List String := s.pending.names

/-- The number of pending problems. -/
def size (s : Sink) : Nat := s.pending.values.flatten.length

/-- Whether no problem is pending. -/
def isEmpty (s : Sink) : Bool := s.pending.values.all List.isEmpty

@[simp] theorem problems_empty (source : String) :
    empty.problems source = [] := rfl

theorem problems_report (s : Sink) (p : Problem) (source : String) :
    (s.report p).problems source =
      if source = p.source then s.problems source ++ [p]
      else s.problems source := by
  simp only [problems, report, NameMap.get?_update]
  split
  · rename_i h
    simp [h]
  · rfl

theorem any_problems_report (s : Sink) (p : Problem) (source : String)
    (f : Problem → Bool) : ((s.report p).problems source).any f =
      ((s.problems source).any f || (source == p.source && f p)) := by
  rw [problems_report]
  by_cases h : source = p.source
  · simp [h]
  · simp [h]

theorem hasFatalIn_report (s : Sink) (p : Problem) (source : String) :
    (s.report p).hasFatalIn source =
      (s.hasFatalIn source || (source == p.source && p.severity.isFatal)) :=
  s.any_problems_report p source _

theorem hasErrorsIn_report (s : Sink) (p : Problem) (source : String) :
    (s.report p).hasErrorsIn source =
      (s.hasErrorsIn source || (source == p.source && p.severity.isError)) :=
  s.any_problems_report p source _

theorem problems_take (s : Sink) (taken source : String) :
    (s.take taken).2.problems source =
      if source = taken then [] else s.problems source := by
  simp only [problems, take, NameMap.get?_erase]
  split <;> rfl

@[simp] theorem fatalSeen_report (s : Sink) (p : Problem) :
    (s.report p).fatalSeen = (s.fatalSeen || p.severity.isFatal) := rfl

@[simp] theorem fatalSeen_take (s : Sink) (source : String) :
    (s.take source).2.fatalSeen = s.fatalSeen := rfl

theorem sources_report (s : Sink) (p : Problem) :
    (s.report p).sources =
      if p.source ∈ s.sources then s.sources else s.sources ++ [p.source] :=
  NameMap.names_update _ _ _

theorem sources_take (s : Sink) (source : String) :
    (s.take source).2.sources = s.sources.filter (· != source) :=
  NameMap.names_erase _ _

end Sink

end ModelText
