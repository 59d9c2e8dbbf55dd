import ModelText.Proofs.Construction.IsolatedUnit

/-!
# What a unit imports

A unit imports what its text imports before the element, if any, that a fatal
fault ends. A text with faults imports nothing.
-/

namespace ModelText

/-- The name of the unit that an item imports. -/
def Item.import? : Item → Option String
  | .importUnit name => some name.value
  | _ => none

/-- The items of a unit before the one that a fatal fault ends. -/
def Walk.completed (ctx : BuildContext) : List Item → Walk → List Item
  | [], _ => []
  | .language name :: rest, w =>
    .language name :: completed ctx rest (w.declareLanguage ctx name)
  | .importUnit name :: rest, w =>
    .importUnit name ::
      completed ctx rest { w with imports := w.imports.insert name.value }
  | .declaration d :: rest, w =>
    match (d.walk ctx w.languages true).exec w.toSession with
    | (.ok object, s) => .declaration d ::
        completed ctx rest (({ w with toSession := s } : Walk).collect ctx object)
    | (.error _, _) => []

/-- The imports that a unit gets done with when it is built on its own. -/
def BuildContext.imports (ctx : BuildContext) : List String :=
  match SourceTree.ofSource ctx.unit.text with
  | .error _ => []
  | .ok tree =>
    let items := Walk.completed ctx tree.items ⟨.empty, .empty, .empty, []⟩
    (NameSet.ofList (items.filterMap Item.import?)).toList

namespace Walk

theorem completed_prefix (ctx : BuildContext) (items : List Item) (w : Walk) :
    w.completed ctx items <+: items := by
  induction items generalizing w with
  | nil => exact List.prefix_refl []
  | cons item rest ih =>
    cases item with
    | language name => exact List.cons_prefix_cons.2 ⟨rfl, ih _⟩
    | importUnit name => exact List.cons_prefix_cons.2 ⟨rfl, ih _⟩
    | declaration d =>
      rw [completed]
      split
      · exact List.cons_prefix_cons.2 ⟨rfl, ih _⟩
      · exact List.nil_prefix

theorem collect_imports (w : Walk) (ctx : BuildContext) (object : ObjectId) :
    (w.collect ctx object).imports = w.imports := by
  unfold collect
  split <;> rfl

theorem items_imports (ctx : BuildContext) (items : List Item) (w : Walk) :
    (w.items ctx items).imports =
      w.imports.insertAll ((w.completed ctx items).filterMap Item.import?) := by
  induction items generalizing w with
  | nil => rfl
  | cons item rest ih =>
    cases item with
    | language name =>
      rw [Walk.items, completed, ih, declareLanguage_imports]
      rfl
    | importUnit name =>
      rw [Walk.items, completed, ih]
      rfl
    | declaration d =>
      rw [Walk.items, completed]
      rcases (d.walk ctx w.languages true).exec w.toSession
        with ⟨f | object, s⟩
      · rfl
      · dsimp only
        rw [ih, collect_imports]
        rfl

end Walk

/-- Building a unit finds its imports, whatever was built before. -/
theorem Session.imports_walkUnit (s : Session) (ctx : BuildContext) :
    (s.walkUnit ctx).1.imports = ctx.imports := by
  rw [(s.walkUnit_alone ctx).imports]
  unfold walkUnit BuildContext.imports
  cases SourceTree.ofSource ctx.unit.text with
  | error diagnostics => rfl
  | ok tree => exact congrArg NameSet.toList (Walk.items_imports ctx _ _)

end ModelText
