import ModelText.Proofs.Construction.IsolatedWalk

/-!
# Units are isolated

A unit does behind any session what it does to an empty one. What it imports
does not depend on the session at all. Which of its elements become roots
depends on the session only if fatal problems of other units keep them from it,
or if the session has fatal problems of the unit already.
-/

namespace ModelText

namespace Walk

/-- `w'` is behind the session `base` where `w` is on its own. -/
structure Behind (ctx : BuildContext) (base : Session) (w w' : Walk) :
    Prop where
  session : w'.toSession = base.append ctx.unit.name w.toSession
  languages : w'.languages = w.languages
  imports : w'.imports = w.imports
  roots : ctx.fatalScope = .unit →
    base.sink.hasFatalIn ctx.unit.name = false →
    w'.roots = w.roots.map (ObjectId.shift base.graph.size)

variable {ctx : BuildContext} {base : Session} {w w' : Walk}

theorem Behind.declareLanguage (h : Behind ctx base w w')
    (name : Spanned String) :
    Behind ctx base (w.declareLanguage ctx name)
      (w'.declareLanguage ctx name) := by
  have hr : w'.roots = w.roots.map (ObjectId.shift base.graph.size) ↔
      (w'.declareLanguage ctx name).roots =
        (w.declareLanguage ctx name).roots.map
          (ObjectId.shift base.graph.size) := by
    rw [declareLanguage_roots, declareLanguage_roots]
  refine ⟨?_, ?_, ?_, fun hs hf => hr.1 (h.roots hs hf)⟩
  · unfold Walk.declareLanguage
    rw [h.languages]
    split
    · exact h.session
    · split
      · rw [Session.append_reportFault, ← h.session]
      · exact h.session
  · unfold Walk.declareLanguage
    rw [h.languages]
    split
    · exact h.languages
    · rfl
  · rw [declareLanguage_imports, declareLanguage_imports]
    exact h.imports

theorem acceptsRoots_append {source : String} {s : Session}
    (hf : base.sink.hasFatalIn source = false) :
    (base.append source s).acceptsRoots .unit source =
      s.acceptsRoots .unit source := by
  unfold Sink.hasFatalIn at hf
  simp only [Session.acceptsRoots, Sink.hasFatalIn, Session.append]
  rw [Sink.problems_append, if_pos rfl, List.any_append, hf, Bool.false_or]

theorem Behind.collect (h : Behind ctx base w w') (object : ObjectId) :
    Behind ctx base (w.collect ctx object)
      (w'.collect ctx (object.shift base.graph.size)) := by
  have hc : ∀ (v : Walk) (o : ObjectId),
      (v.collect ctx o).toSession = v.toSession ∧
        (v.collect ctx o).languages = v.languages ∧
        (v.collect ctx o).imports = v.imports := by
    intro v o
    unfold Walk.collect
    split <;> exact ⟨rfl, rfl, rfl⟩
  obtain ⟨hs, hl, hi⟩ := hc w object
  obtain ⟨hs', hl', hi'⟩ := hc w' (object.shift base.graph.size)
  refine ⟨?_, ?_, ?_, fun hu hf => ?_⟩
  · rw [hs, hs', h.session]
  · rw [hl, hl', h.languages]
  · rw [hi, hi', h.imports]
  · have ha : w'.acceptsRoots .unit ctx.unit.name =
        w.acceptsRoots .unit ctx.unit.name := by
      rw [h.session, acceptsRoots_append hf]
    unfold Walk.collect
    rw [hu, ha]
    split
    · simp [h.roots hu hf]
    · exact h.roots hu hf

theorem Behind.items (h : Behind ctx base w w') (items : List Item) :
    Behind ctx base (w.items ctx items) (w'.items ctx items) := by
  induction items generalizing w w' with
  | nil => exact h
  | cons item rest ih =>
    cases item with
    | language name => exact ih (h.declareLanguage name)
    | importUnit name =>
      have hi : w'.imports.insert name.value = w.imports.insert name.value :=
        congrArg (NameSet.insert · name.value) h.imports
      exact ih ⟨h.session, h.languages, hi, h.roots⟩
    | declaration d =>
      have hd := isolated_walk ctx w.languages true d w.toSession
      rw [Walk.items, Walk.items, h.languages, h.session]
      rcases hw : (d.walk ctx w.languages true).exec w.toSession
        with ⟨f | object, s⟩
      · rw [hd.same _ _ hw base]
        exact ⟨(base.append_reportFault ctx.unit s f).symm, rfl, h.imports,
          h.roots⟩
      · rw [hd.same _ _ hw base]
        have hs : Behind ctx base { w with toSession := s }
            ⟨base.append ctx.unit.name s, w.languages, w'.imports, w'.roots⟩ :=
          ⟨rfl, rfl, h.imports, h.roots⟩
        exact ih (hs.collect object)

end Walk

namespace Session

theorem append_foldl_reportIn (base : Session) (unit : SourceUnit)
    (diagnostics : List Diagnostic) (s : Session) :
    base.append unit.name (diagnostics.foldl (·.reportIn unit ·) s) =
      diagnostics.foldl (·.reportIn unit ·) (base.append unit.name s) := by
  induction diagnostics generalizing s with
  | nil => rfl
  | cons d rest ih =>
    rw [List.foldl_cons, ih, List.foldl_cons, append_reportIn]

/-- A unit behind a session and the same unit on its own. -/
structure Alone (base : Session) (ctx : BuildContext) : Prop where
  session : (base.walkUnit ctx).2 =
    base.append ctx.unit.name (empty.walkUnit ctx).2
  imports : (base.walkUnit ctx).1.imports = (empty.walkUnit ctx).1.imports
  roots : ctx.fatalScope = .unit →
    base.sink.hasFatalIn ctx.unit.name = false →
    (base.walkUnit ctx).1.roots =
      (empty.walkUnit ctx).1.roots.map (ObjectId.shift base.graph.size)

theorem walkUnit_alone (base : Session) (ctx : BuildContext) :
    Alone base ctx := by
  cases ht : SourceTree.ofSource ctx.unit.text with
  | error diagnostics =>
    have hw : ∀ s : Session, s.walkUnit ctx =
        (⟨[], []⟩, diagnostics.foldl (·.reportIn ctx.unit ·) s) := by
      intro s
      rw [walkUnit, ht]
    refine ⟨?_, ?_, fun _ _ => ?_⟩
    · rw [hw, hw, append_foldl_reportIn, append_empty]
    · rw [hw, hw]
    · rw [hw, hw]
      rfl
  | ok tree =>
    have hw : ∀ s : Session, s.walkUnit ctx =
        (⟨(tree.walk ctx ⟨s, .empty, .empty, []⟩).roots,
          (tree.walk ctx ⟨s, .empty, .empty, []⟩).imports.toList⟩,
          (tree.walk ctx ⟨s, .empty, .empty, []⟩).toSession) := by
      intro s
      rw [walkUnit, ht]
    have hb : Walk.Behind ctx base ⟨empty, .empty, .empty, []⟩
        ⟨base, .empty, .empty, []⟩ :=
      ⟨(base.append_empty ctx.unit.name).symm, rfl, rfl, fun _ _ => rfl⟩
    have h := hb.items tree.items
    refine ⟨?_, ?_, fun hu hf => ?_⟩
    · rw [hw, hw]
      exact h.session
    · rw [hw, hw]
      exact congrArg NameSet.toList h.imports
    · rw [hw, hw]
      exact h.roots hu hf

end Session

end ModelText
