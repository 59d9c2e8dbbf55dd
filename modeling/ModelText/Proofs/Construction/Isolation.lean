import ModelText.Proofs.Construction.Walk
import ModelText.Proofs.Graph.Append
import ModelText.Proofs.Graph.Places

/-!
# Units do not disturb each other

What a unit does to a session of its own, it does behind any other session: its
objects come behind those that are there, its problems and links are added to
theirs, and nothing else changes. `Work.Isolated` says so of a piece of work:
`there n` is the same work on objects whose numbers are shifted by `n`.

Only faults without the number of an object are the same behind another session.
The other ones do not arise, since work is done on objects that are there, and
the elements of a block were created within the block, so nobody holds them.
`Graph.Keeps` is the invariant that carries this: no piece of work but the
attachment of elements changes the place of an object.
-/

namespace ModelText

namespace Sink

/-- The problems so far, and behind those of a unit what another sink has of
it. -/
def append (base : Sink) (source : String) (s : Sink) : Sink where
  pending :=
    if s.problems source = [] then base.pending
    else base.pending.update source fun problems =>
      problems.getD [] ++ s.problems source
  fatalSeen := base.fatalSeen || s.fatalSeen

@[simp] theorem append_empty (base : Sink) (source : String) :
    base.append source empty = base := by
  simp [append, empty, problems]

theorem append_report (base : Sink) {source : String} (s : Sink) {p : Problem}
    (hp : p.source = source) :
    base.append source (s.report p) = (base.append source s).report p := by
  have hs : (s.report p).problems source = s.problems source ++ [p] := by
    rw [problems_report, if_pos hp.symm]
  unfold append
  rw [hs]
  by_cases hn : s.problems source = []
  · simp [report, hn, hp, Bool.or_assoc]
  · simp [report, hn, hp, NameMap.update_update, Bool.or_assoc]

theorem problems_append (base : Sink) (source : String) (s : Sink)
    (other : String) :
    (base.append source s).problems other =
      if other = source then base.problems source ++ s.problems source
      else base.problems other := by
  by_cases hn : s.problems source = []
  · have hp : (base.append source s).pending = base.pending := if_pos hn
    rw [problems, hp, hn, List.append_nil]
    split
    · rename_i ho
      rw [ho]
      rfl
    · rfl
  · have hp : (base.append source s).pending =
        base.pending.update source fun problems =>
          problems.getD [] ++ s.problems source := if_neg hn
    rw [problems, hp, NameMap.get?_update]
    split <;> rfl

theorem mem_sources_append {base : Sink} {source other : String} {s : Sink}
    (h : other ∈ (base.append source s).sources) :
    other = source ∨ other ∈ base.sources := by
  unfold append sources at h
  by_cases hn : s.problems source = []
  · rw [if_pos hn] at h
    exact .inr h
  · rw [if_neg hn, NameMap.names_update] at h
    split at h
    · exact .inr h
    · rcases List.mem_append.1 h with h | h
      · exact .inr h
      · exact .inl (List.mem_singleton.1 h)

end Sink

namespace Session

/-- A session, and behind it what a unit did to a session of its own. -/
def append (base : Session) (source : String) (s : Session) : Session where
  graph := base.graph.append s.graph
  sink := base.sink.append source s.sink
  requests := base.requests ++
    s.requests.map (LinkRequest.rename (ObjectId.shift base.graph.size))

@[simp] theorem append_empty (base : Session) (source : String) :
    base.append source empty = base := by
  simp [append, empty]

theorem append_report (base s : Session) {source : String} {p : Problem}
    (hp : p.source = source) :
    base.append source (s.report p) = (base.append source s).report p := by
  simp [append, report, Sink.append_report _ _ hp]

theorem append_reportIn (base : Session) (unit : SourceUnit) (s : Session)
    (d : Diagnostic) :
    base.append unit.name (s.reportIn unit d) =
      (base.append unit.name s).reportIn unit d :=
  base.append_report s (Problem.source_locate _ _ _)

theorem append_reportFault (base : Session) (unit : SourceUnit)
    (s : Session) (f : Spanned Fault) :
    base.append unit.name (s.reportFault unit f) =
      (base.append unit.name s).reportFault unit f :=
  base.append_reportIn unit s _

end Session

/-- The work does behind any session what it does to a session of its own, with
all objects shifted. All outcomes have `kept`, and the result has `post`. -/
structure Work.Isolated {α : Type} (source : String) (work : SessionWork α)
    (there : Nat → SessionWork α) (move : Nat → α → α) (s : Session)
    (kept : Graph → Prop) (post : α → Graph → Prop) : Prop where
  kept : ∀ r t, work.exec s = (r, t) → kept t.graph
  post : ∀ a t, work.exec s = (.ok a, t) → post a t.graph
  same : ∀ r t, work.exec s = (r, t) → ∀ base : Session,
    (there base.graph.size).exec (base.append source s) =
      (r.map (move base.graph.size), base.append source t)

namespace Work

variable {α β : Type} {source : String} {s : Session} {work : SessionWork α}
  {there : Nat → SessionWork α} {move : Nat → α → α} {kept : Graph → Prop}
  {post : α → Graph → Prop}

theorem Isolated.mono {kept' : Graph → Prop} {post' : α → Graph → Prop}
    (h : Isolated source work there move s kept post)
    (hk : ∀ g, kept g → kept' g)
    (hp : ∀ a g, kept g → post a g → post' a g) :
    Isolated source work there move s kept' post' where
  kept r t ht := hk _ (h.kept r t ht)
  post a t ht := hp a _ (h.kept _ t ht) (h.post a t ht)
  same := h.same

theorem Isolated.pure {a : α} {a' : Nat → α} (ha : ∀ n, a' n = move n a)
    (hk : kept s.graph) (hp : post a s.graph) :
    Isolated source (pure a) (fun n => pure (a' n)) move s kept post where
  kept r t h := by
    cases h
    exact hk
  post b t h := by
    cases h
    exact hp
  same r t h base := by
    cases h
    rw [ha]
    rfl

theorem Isolated.fail (fault : Fault) (span : Span) (hk : kept s.graph) :
    Isolated source (fail fault span : SessionWork α)
      (fun _ => Work.fail fault span) move s kept post where
  kept r t h := by
    cases h
    exact hk
  post b t h := by cases h
  same r t h base := by
    cases h
    rfl

theorem Isolated.ofExcept {result : Except Fault α} (span : Span)
    (hk : kept s.graph) (hm : ∀ n a, result = .ok a → move n a = a)
    (hp : ∀ a, result = .ok a → post a s.graph) :
    Isolated source (ofExcept span result) (fun _ => Work.ofExcept span result)
      move s kept post := by
  cases result with
  | error fault => exact .fail fault span hk
  | ok a => exact .pure (fun n => (hm n a rfl).symm) hk (hp a rfl)

theorem Isolated.bind {next : α → SessionWork β}
    {next' : Nat → α → SessionWork β} {move' : Nat → β → β}
    {post' : β → Graph → Prop}
    (hw : Isolated source work there move s kept post)
    (hn : ∀ a t, kept t.graph → post a t.graph →
      Isolated source (next a) (fun n => next' n (move n a)) move' t kept
        post') :
    Isolated source (work >>= next) (fun n => there n >>= next' n) move' s kept
      post' where
  kept r t h := by
    rcases exec_bind_eq h with ⟨f, hr, -⟩ | ⟨a, u, hr, h⟩
    · exact hw.kept _ t hr
    · exact (hn a u (hw.kept _ u hr) (hw.post a u hr)).kept r t h
  post b t h := by
    obtain ⟨a, u, hr, h⟩ := exec_bind_eq_ok h
    exact (hn a u (hw.kept _ u hr) (hw.post a u hr)).post b t h
  same r t h base := by
    rcases exec_bind_eq h with ⟨f, hr, rfl⟩ | ⟨a, u, hr, h⟩
    · exact exec_bind_of_error (hw.same _ _ hr base) _
    · rw [exec_bind_of_ok (hw.same _ _ hr base)]
      exact (hn a u (hw.kept _ u hr) (hw.post a u hr)).same r t h base

end Work

namespace SessionWork

open Work (Isolated)

variable {s : Session} {kept : Graph → Prop}

theorem isolated_report (unit : SourceUnit) (f : Spanned Fault)
    (hk : kept s.graph) :
    Isolated unit.name (report unit f) (fun _ => report unit f) (fun _ => id) s
      kept fun _ _ => True where
  kept r t h := by
    cases h
    exact hk
  post _ _ _ := trivial
  same r t h base := by
    cases h
    exact congrArg _ (base.append_reportFault unit s f).symm

theorem isolated_recover (unit : SourceUnit) {work : SessionWork Unit}
    {there : Nat → SessionWork Unit} {post : Unit → Graph → Prop}
    (h : Isolated unit.name work there (fun _ => id) s kept post) :
    Isolated unit.name (recover unit work) (fun n => recover unit (there n))
      (fun _ => id) s kept fun _ _ => True where
  kept r t hr := by
    rcases hw : work.exec s with ⟨f | ⟨⟩, u⟩
    · have hu := h.kept _ u hw
      cases hf : f.value.severity.isFatal with
      | true =>
        rw [recover, Work.exec_recoverBy_of_fatal hw hf] at hr
        cases hr
        exact hu
      | false =>
        rw [recover, Work.exec_recoverBy_of_error hw hf] at hr
        exact (isolated_report unit f hu).kept r t hr
    · rw [recover, Work.exec_recoverBy_of_ok hw] at hr
      cases hr
      exact h.kept _ t hw
  post _ _ _ := trivial
  same r t hr base := by
    rcases hw : work.exec s with ⟨f | ⟨⟩, u⟩
    · have hb := h.same _ u hw base
      cases hf : f.value.severity.isFatal with
      | true =>
        rw [recover, Work.exec_recoverBy_of_fatal hw hf] at hr
        cases hr
        exact Work.exec_recoverBy_of_fatal hb hf
      | false =>
        rw [recover, Work.exec_recoverBy_of_error hw hf] at hr
        rw [recover, Work.exec_recoverBy_of_error hb hf]
        exact (isolated_report unit f (h.kept _ u hw)).same r t hr base
    · rw [recover, Work.exec_recoverBy_of_ok hw] at hr
      cases hr
      exact Work.exec_recoverBy_of_ok (h.same _ t hw base)

/-- A change that the graph allows or refuses in the same way behind any other
graph. -/
theorem isolated_change {source : String} (attempt : Attempt) (span : Span)
    {f : Graph → Except Graph.Error Graph}
    {f' : Nat → Graph → Except Graph.Error Graph} (hk : kept s.graph)
    (hf : ∀ base : Graph,
      f' base.size (base.append s.graph) = (f s.graph).map base.append)
    (hc : ∀ g, f s.graph = .ok g → kept g) :
    Isolated source (change attempt span f)
      (fun n => change attempt span (f' n)) (fun _ => id) s kept
      fun _ _ => True := by
  constructor
  · intro r t h
    cases hg : f s.graph with
    | error e =>
      rw [exec_change_of_error hg] at h
      cases h
      exact hk
    | ok g =>
      rw [exec_change_of_ok hg] at h
      cases h
      exact hc g hg
  · exact fun _ _ _ => trivial
  · intro r t h base
    have hb : f' base.graph.size (base.append source s).graph = _ :=
      hf base.graph
    cases hg : f s.graph with
    | error e =>
      rw [exec_change_of_error hg] at h
      rw [hg] at hb
      rw [exec_change_of_error hb]
      cases h
      rfl
    | ok g =>
      rw [exec_change_of_ok hg] at h
      rw [hg] at hb
      rw [exec_change_of_ok hb]
      cases h
      rfl

end SessionWork

end ModelText
