import ModelText.Proofs.Construction.Calm

/-!
# Elements that come to their ends

The elements at the top level become roots of their unit when they end, if fatal
problems do not keep them. `Session.endings` lists those whose end is reached,
each with the session at its end. A fatal fault ends the unit before the end of
its element, so that element and those behind it are not in the list.

What the fatal scope does is to choose from this list. Nothing else that is done
for a unit depends on it.
-/

namespace ModelText

/-- An element at the top level whose end is reached. -/
structure Ending where
  /-- The element. -/
  object : ObjectId
  /-- The session at its end. -/
  session : Session

/-- The elements that fatal problems do not keep from becoming roots: those that
end before the session has a fatal problem, or all that end. -/
def FatalScope.kept : FatalScope → List Ending → List ObjectId
  | .session, endings =>
    (endings.filter fun e => !e.session.sink.hasFatal).map (·.object)
  | .unit, endings => endings.map (·.object)

/-- The elements at the top level whose end is reached, in order. -/
def Walk.endings (ctx : BuildContext) : List Item → Walk → List Ending
  | [], _ => []
  | .language name :: rest, w => endings ctx rest (w.declareLanguage ctx name)
  | .importUnit name :: rest, w =>
    endings ctx rest { w with imports := w.imports.insert name.value }
  | .declaration d :: rest, w =>
    match (d.walk ctx w.languages true).exec w.toSession with
    | (.ok object, s) => ⟨object, s⟩ ::
        endings ctx rest (({ w with toSession := s } : Walk).collect ctx object)
    | (.error _, _) => []

/-- The elements at the top level of a unit whose end is reached, in order. -/
def Session.endings (s : Session) (ctx : BuildContext) : List Ending :=
  match SourceTree.ofSource ctx.unit.text with
  | .error _ => []
  | .ok tree => Walk.endings ctx tree.items ⟨s, .empty, .empty, []⟩

theorem FatalScope.sublist_kept (endings : List Ending) :
    (FatalScope.session.kept endings).Sublist
      (FatalScope.unit.kept endings) :=
  List.Sublist.map _ List.filter_sublist

/-! ### Roots -/

namespace Walk

theorem roots_collect (w : Walk) (ctx : BuildContext) (object : ObjectId) :
    (w.collect ctx object).roots = w.roots ++
      if w.acceptsRoots ctx.fatalScope ctx.unit.name then [object] else [] := by
  unfold collect
  split
  · rfl
  · exact (List.append_nil _).symm

/-- The roots are those that the session accepts at their ends. -/
theorem roots_items (ctx : BuildContext) (items : List Item) (w : Walk) :
    (w.items ctx items).roots = w.roots ++
      ((w.endings ctx items).filter fun e =>
        e.session.acceptsRoots ctx.fatalScope ctx.unit.name).map
          (·.object) := by
  induction items generalizing w with
  | nil => exact (List.append_nil _).symm
  | cons item rest ih =>
    cases item with
    | language name =>
      rw [Walk.items, endings, ih, declareLanguage_roots]
    | importUnit name =>
      rw [Walk.items, endings, ih]
    | declaration d =>
      rw [Walk.items, endings]
      rcases (d.walk ctx w.languages true).exec w.toSession
        with ⟨f | object, s⟩
      · exact (List.append_nil _).symm
      · dsimp only
        rw [ih, roots_collect, List.append_assoc, List.filter_cons]
        dsimp only
        split
        · rfl
        · rfl

/-- Nothing fatal is reported before the last of the ends. -/
theorem calm_endings (ctx : BuildContext) (items : List Item) (w : Walk) :
    ∀ e ∈ w.endings ctx items, w.sink.Calm e.session.sink := by
  induction items generalizing w with
  | nil => exact fun _ h => absurd h List.not_mem_nil
  | cons item rest ih =>
    cases item with
    | language name =>
      exact fun e he => (w.remarked_declareLanguage ctx name).calm.trans (ih _ e he)
    | importUnit name => exact ih { w with imports := w.imports.insert name.value }
    | declaration d =>
      rw [endings]
      rcases hw : (d.walk ctx w.languages true).exec w.toSession
        with ⟨f | object, s⟩
      · exact fun _ h => absurd h List.not_mem_nil
      · have hs : w.sink.Calm s.sink :=
          ((Work.Remarks.recovering ctx.unit).walk w.languages true d
            _ _ _ hw).calm
        intro e he
        rcases List.mem_cons.1 he with rfl | he
        · exact hs
        · have hr := ih _ e he
          rw [toSession_collect] at hr
          exact hs.trans hr

end Walk

/-- The roots of a unit without earlier fatal problems are those that the fatal
scope lets through. -/
theorem Session.roots_eq_kept {s : Session} {ctx : BuildContext}
    (hc : s.sink.Candid) (hf : s.sink.hasFatalIn ctx.unit.name = false) :
    (s.walkUnit ctx).1.roots = ctx.fatalScope.kept (s.endings ctx) := by
  unfold walkUnit endings
  cases SourceTree.ofSource ctx.unit.text with
  | error diagnostics => cases ctx.fatalScope <;> rfl
  | ok tree =>
    -- whether a root is accepted does not change while the unit is built
    have hcalm := Walk.calm_endings ctx tree.items ⟨s, .empty, .empty, []⟩
    refine (Walk.roots_items ctx tree.items _).trans ?_
    rw [List.nil_append]
    cases ctx.fatalScope with
    | session =>
      refine congrArg (List.map _) (List.filter_congr fun e he => ?_)
      have he := (hcalm e he).candid hc
      exact congrArg (!·) (Bool.eq_iff_iff.2 he)
    | unit =>
      refine congrArg (List.map _) (List.filter_eq_self.2 fun e he => ?_)
      have he := (hcalm e he).units ctx.unit.name
      rw [hf] at he
      exact congrArg (!·) he

/-! ### Other scopes -/

/-- The same with another fatal scope. -/
def BuildContext.inScope (ctx : BuildContext) (scope : FatalScope) :
    BuildContext :=
  { ctx with fatalScope := scope }

section

variable (ctx : BuildContext) (scope : FatalScope)

mutual

theorem walk_inScope (languages : NameSet) (atTop : Bool) (d : Declaration) :
    d.walk (ctx.inScope scope) languages atTop =
      d.walk ctx languages atTop := by
  obtain ⟨modifiers, typeWord, name, members, span⟩ := d
  rw [Declaration.walk, Declaration.walk]
  refine bind_congr (m := SessionWork) fun ⟨object, type⟩ => ?_
  dsimp only
  rw [memberWalk_inScope languages object type members]

theorem memberWalk_inScope (languages : NameSet) (object : ObjectId)
    (type : ObjectType) (members : List Member) :
    memberWalk (ctx.inScope scope) languages object type members =
      memberWalk ctx languages object type members := by
  cases members with
  | nil => rw [memberWalk, memberWalk]
  | cons member rest =>
    have hr := memberWalk_inScope languages object type rest
    cases member with
    | slot name value =>
      rw [memberWalk, memberWalk, hr]
      rfl
    | link feature path =>
      rw [memberWalk, memberWalk, hr]
      rfl
    | block feature declarations span =>
      rw [memberWalk, memberWalk, hr,
        declarationWalk_inScope languages declarations]
      rfl

theorem declarationWalk_inScope (languages : NameSet)
    (declarations : List Declaration) :
    declarationWalk (ctx.inScope scope) languages declarations =
      declarationWalk ctx languages declarations := by
  cases declarations with
  | nil => rw [declarationWalk, declarationWalk]
  | cons d rest =>
    rw [declarationWalk, declarationWalk, walk_inScope languages false d,
      declarationWalk_inScope languages rest]

end

end

namespace Walk

/-- The walks differ at most in the roots. -/
def Alike (w w' : Walk) : Prop := ∃ roots, w' = { w with roots := roots }

variable {w w' : Walk}

theorem Alike.refl (w : Walk) : w.Alike w := ⟨w.roots, rfl⟩

theorem Alike.collect (h : w.Alike w') (ctx : BuildContext)
    (scope : FatalScope) (object : ObjectId) :
    (w.collect ctx object).Alike
      (w'.collect (ctx.inScope scope) object) := by
  obtain ⟨roots, rfl⟩ := h
  unfold Walk.collect
  split <;> split <;> exact ⟨_, rfl⟩

theorem Alike.declareLanguage (h : w.Alike w') (ctx : BuildContext)
    (scope : FatalScope) (name : Spanned String) :
    (w.declareLanguage ctx name).Alike
      (w'.declareLanguage (ctx.inScope scope) name) := by
  obtain ⟨roots, rfl⟩ := h
  unfold Walk.declareLanguage
  dsimp only
  split <;> exact ⟨roots, rfl⟩

/-- The fatal scope has no influence on anything but the roots. -/
theorem Alike.items (h : w.Alike w') (ctx : BuildContext) (scope : FatalScope)
    (items : List Item) :
    (w.items ctx items).Alike (w'.items (ctx.inScope scope) items) ∧
      w'.endings (ctx.inScope scope) items = w.endings ctx items := by
  induction items generalizing w w' with
  | nil => exact ⟨h, rfl⟩
  | cons item rest ih =>
    cases item with
    | language name => exact ih (h.declareLanguage ctx scope name)
    | importUnit name =>
      obtain ⟨roots, rfl⟩ := h
      exact ih ⟨roots, rfl⟩
    | declaration d =>
      obtain ⟨roots, rfl⟩ := h
      rw [Walk.items, Walk.items, endings, endings, walk_inScope]
      dsimp only
      rcases (d.walk ctx w.languages true).exec w.toSession
        with ⟨f | object, s⟩
      · exact ⟨⟨roots, rfl⟩, rfl⟩
      · have hs : ({ w with toSession := s } : Walk).Alike
            { w with toSession := s, roots := roots } := ⟨roots, rfl⟩
        obtain ⟨hi, he⟩ := ih (hs.collect ctx scope object)
        exact ⟨hi, congrArg (List.cons ⟨object, s⟩) he⟩

end Walk

namespace Session

variable (s : Session) (ctx : BuildContext) (scope : FatalScope)

theorem walkUnit_inScope :
    (s.walkUnit (ctx.inScope scope)).2 = (s.walkUnit ctx).2 ∧
      (s.walkUnit (ctx.inScope scope)).1.imports =
        (s.walkUnit ctx).1.imports := by
  unfold walkUnit
  rw [show (ctx.inScope scope).unit = ctx.unit from rfl]
  cases SourceTree.ofSource ctx.unit.text with
  | error diagnostics => exact ⟨rfl, rfl⟩
  | ok tree =>
    obtain ⟨⟨roots, hw⟩, -⟩ :=
      (Walk.Alike.refl ⟨s, .empty, .empty, []⟩).items ctx scope tree.items
    unfold SourceTree.walk
    dsimp only
    rw [hw]
    exact ⟨rfl, rfl⟩

theorem endings_inScope : s.endings (ctx.inScope scope) = s.endings ctx := by
  unfold endings
  rw [show (ctx.inScope scope).unit = ctx.unit from rfl]
  cases SourceTree.ofSource ctx.unit.text with
  | error diagnostics => rfl
  | ok tree => exact ((Walk.Alike.refl _).items ctx scope tree.items).2

end Session

end ModelText
