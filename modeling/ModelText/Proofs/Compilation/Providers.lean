import ModelText.Proofs.Compilation.Closure

/-!
# Compilation from any supply

The compiler is given a bound on the number of batches, which the number of all
imports in all texts is. Where texts come from a supply of which not all texts
are known, there is no such number at hand; what counts is that the units that
are reached are finitely many. `config.Compiles m provider entries outcome` says
that this is the outcome for all bounds that are large enough. It is what the compiler
gives if the texts are known, and there is such an outcome if the units that are
reached are finitely many.
-/

namespace ModelText

/-- The texts of a compilation from any supply. The units that come with the
languages are looked for first. -/
def Metamodel.layered (m : Metamodel) (provider : String → Option String)
    (name : String) : Option String :=
  (m.builtIns.get? name).orElse fun _ => provider name

/-- The units that are reached are finitely many. -/
def Workspace.Finite (w : Workspace) (entries : List String) : Prop :=
  ∃ all : List String, ∀ name, w.Reaches entries name → name ∈ all

namespace Config

variable (config : Config) (m : Metamodel) (provider : String → Option String)

/-- Compiles units and all that they import, in up to so many further
batches. -/
def compileWithin (further : Nat) (entries : List String) :
    Except CompileError Compilation :=
  if entries.isEmpty && !config.implicitBuiltIns then .error .noEntryPoints
  else .ok (((config.workspace m (m.layered provider)).build further
    (config.entries m entries)).finish config)

/-- Compiling units comes to this outcome if no bound is met. -/
def Compiles (entries : List String)
    (outcome : Except CompileError Compilation) : Prop :=
  ∃ bound, ∀ further, bound ≤ further →
    config.compileWithin m provider further entries = outcome

theorem compile_eq_compileWithin (entries : List String) (sources : Sources) :
    compile m config entries sources =
      config.compileWithin m sources.fetch (m.supply sources).importCount
        entries := rfl

end Config

namespace Workspace

variable {w : Workspace} {entries : List String}

/-- Finitely many units are built batch by batch, whatever the bound is if only
it is large enough. -/
theorem Finite.build (h : w.Finite entries) :
    ∃ layers, w.Layers [] entries layers ∧ ∃ bound, ∀ further, bound ≤ further →
      Progress.Same (w.build further entries)
        (layers.flatten.foldl (Progress.addUnit w) .start) := by
  classical
  obtain ⟨all, ha⟩ := h
  have hc : ∀ name ∈ all.filter (w.Reaches entries ·),
      w.imports name ⊆ all.filter (w.Reaches entries ·) := by
    intro name hn other ho
    have hr : w.Reaches entries other :=
      .imported (of_decide_eq_true (List.mem_filter.1 hn).2) ho
    exact List.mem_filter.2 ⟨ha other hr, decide_eq_true hr⟩
  have he : entries ⊆ all.filter (w.Reaches entries ·) := by
    intro name hn
    have hr : w.Reaches entries name := .entry hn
    exact List.mem_filter.2 ⟨ha name hr, decide_eq_true hr⟩
  obtain ⟨layers, hl, -⟩ := w.build_layers hc he (Nat.le_refl _)
  refine ⟨layers, hl, ((all.filter (w.Reaches entries ·)).filter
    (· ∉ entries)).length, fun further hf => ?_⟩
  obtain ⟨layers', hl', hs⟩ := w.build_layers hc he hf
  rw [hl.unique hl']
  exact hs

end Workspace

namespace Config

variable {config : Config} {m : Metamodel} {provider : String → Option String}
  {entries : List String}

/-- If nothing is asked for, no units are compiled. -/
theorem compiles_error
    (hn : (entries.isEmpty && !config.implicitBuiltIns) = true) :
    config.Compiles m provider entries (.error .noEntryPoints) := by
  refine ⟨0, fun further _ => ?_⟩
  unfold compileWithin
  rw [if_pos hn]

/-- From finitely many units the compiler comes to the outcome of building them
batch by batch. -/
theorem compiles_ok
    (hn : (entries.isEmpty && !config.implicitBuiltIns) = false)
    (hf : (config.workspace m (m.layered provider)).Finite
      (config.entries m entries)) :
    let w := config.workspace m (m.layered provider)
    ∃ layers, w.Layers [] (config.entries m entries) layers ∧
      config.Compiles m provider entries
        (.ok ((layers.flatten.foldl (Progress.addUnit w) .start).finish
          config)) := by
  intro w
  obtain ⟨layers, hl, bound, hb⟩ := hf.build
  refine ⟨layers, hl, bound, fun further hle => ?_⟩
  unfold compileWithin
  rw [hn, (hb further hle).finish config]
  rfl

/-- If the texts are known, this is what the compiler comes to. -/
theorem Compiles.compile_eq {outcome : Except CompileError Compilation}
    {sources : Sources} (h : config.Compiles m sources.fetch entries outcome) :
    compile m config entries sources = outcome := by
  obtain ⟨bound, hb⟩ := h
  have hb := hb _ (Nat.le_max_left bound (m.supply sources).importCount)
  obtain ⟨layers, hl, hs⟩ :=
    config.build_layers m entries sources (Nat.le_refl _)
  obtain ⟨layers', hl', hs'⟩ := config.build_layers m entries sources
    (Nat.le_max_right bound (m.supply sources).importCount)
  rw [← hl.unique hl'] at hs'
  rw [← hb, compile_eq_compileWithin]
  have hfinish := (hs.finish config).trans (hs'.finish config).symm
  unfold compileWithin
  by_cases hc : (entries.isEmpty && !config.implicitBuiltIns) = true
  · rw [if_pos hc, if_pos hc]
  · rw [if_neg hc, if_neg hc]
    exact congrArg Except.ok hfinish

end Config

end ModelText
