import ModelText.Proofs.Compilation.Roots
import ModelText.Proofs.Construction.LinkMoves

/-!
# Units that are written otherwise

A unit whose text differs from another one in places only is built alike. So is
a unit with a link at another place among the members of its element, if
nothing fatal is told of the unit. Alike sessions are left behind, the same
units are imported, and the same elements come to their ends at the top level.
-/

namespace ModelText

/-! ### Items -/

/-- Items that are built alike, at the top level of a unit. -/
inductive Item.Alike (faults : Prop) (ctx ctx' : BuildContext) :
    Item → Item → Prop
  | language {name name' : Spanned String} (h : name'.value = name.value) :
    Alike faults ctx ctx' (.language name) (.language name')
  | importUnit {name name' : Spanned String} (h : name'.value = name.value) :
    Alike faults ctx ctx' (.importUnit name) (.importUnit name')
  | declaration {d d' : Declaration}
      (h : ∀ languages s, Work.Alike everywhere faults
        (d.walk ctx languages true) (d'.walk ctx' languages true) s) :
    Alike faults ctx ctx' (.declaration d) (.declaration d')

namespace Item

variable {faults : Prop} {ctx ctx' : BuildContext}

theorem alike_self (item : Item) : item.Alike faults ctx ctx item := by
  cases item with
  | language name => exact .language rfl
  | importUnit name => exact .importUnit rfl
  | declaration d =>
    exact .declaration fun languages s =>
      .self (alike_walk ⟨rfl, rfl, rfl⟩ languages true d) s

theorem alike_of_unplaced (hc : ctx.Alike ctx') {item item' : Item}
    (h : item'.unplaced = item.unplaced) : item.Alike True ctx ctx' item' := by
  cases item with
  | language name =>
    cases item' with
    | language name' =>
      exact .language (Spanned.mk.inj (language.inj h)).1
    | _ => cases h
  | importUnit name =>
    cases item' with
    | importUnit name' =>
      exact .importUnit (Spanned.mk.inj (importUnit.inj h)).1
    | _ => cases h
  | declaration d =>
    cases item' with
    | declaration d' =>
      exact .declaration fun languages s =>
        alike_walk_of_unplaced hc (declaration.inj h) languages true s
    | _ => cases h

theorem Alike.trans {item item' item'' : Item}
    (h : item.Alike faults ctx ctx item')
    (h' : item'.Alike True ctx ctx' item'') :
    item.Alike faults ctx ctx' item'' := by
  cases h with
  | language hn =>
    cases h' with
    | language hn' => exact .language (hn'.trans hn)
  | importUnit hn =>
    cases h' with
    | importUnit hn' => exact .importUnit (hn'.trans hn)
  | declaration hd =>
    cases h' with
    | declaration hd' =>
      exact .declaration fun languages s =>
        (hd languages s).trans (hd' languages s).mono

theorem forall₂_trans {items items' items'' : List Item}
    (h : List.Forall₂ (Item.Alike faults ctx ctx) items items')
    (h' : List.Forall₂ (Item.Alike True ctx ctx') items' items'') :
    List.Forall₂ (Item.Alike faults ctx ctx') items items'' := by
  induction h generalizing items'' with
  | nil =>
    cases h'
    exact .nil
  | cons ha _ ih =>
    cases h' with
    | cons ha' h' => exact .cons (ha.trans ha') (ih h')

end Item

namespace SourceTree

variable {ctx ctx' : BuildContext}

/-- Trees that differ in places only have items that are built alike. -/
theorem alike_of_unplaced (hc : ctx.Alike ctx') {tree tree' : SourceTree}
    (h : tree'.unplaced = tree.unplaced) :
    List.Forall₂ (Item.Alike True ctx ctx') tree.items tree'.items := by
  have hi : List.Forall₂ (· = ·) (tree'.items.map Item.unplaced)
      (tree.items.map Item.unplaced) := by
    rw [List.forall₂_eq_eq_eq]
    exact congrArg items h
  rw [List.forall₂_map_left_iff, List.forall₂_map_right_iff] at hi
  exact (hi.imp fun _ _ hi => Item.alike_of_unplaced hc hi).flip

theorem Moved.alike {c : Catalog} (hm : ctx.metamodel = c.metamodel)
    {tree tree' : SourceTree} (h : tree.Moved c tree') :
    List.Forall₂ (Item.Alike False ctx ctx) tree.items tree'.items := by
  have hs : ∀ items : List Item,
      List.Forall₂ (Item.Alike False ctx ctx) items items :=
    fun items => List.forall₂_same.2 fun item _ => item.alike_self
  cases h with
  | declaration h =>
    refine List.rel_append (hs _) (.cons ?_ (hs _))
    exact .declaration fun languages s => h.alike hm languages true s

end SourceTree

/-- Elements that come to their ends in alike sessions. -/
def Ending.Alike (e e' : Ending) : Prop :=
  e'.object = e.object ∧ e.session.Alike everywhere e'.session

namespace Walk

/-- The walks differ at most in what alike sessions differ in, and in roots. -/
structure Agrees (w w' : Walk) : Prop where
  session : w.toSession.Alike everywhere w'.toSession
  languages : w'.languages = w.languages
  imports : w'.imports = w.imports

variable {w w' : Walk} {ctx ctx' : BuildContext}

theorem Agrees.collect (h : w.Agrees w') (object : ObjectId) :
    (w.collect ctx object).Agrees (w'.collect ctx' object) := by
  unfold Walk.collect
  split <;> split <;> exact ⟨h.session, h.languages, h.imports⟩

theorem Agrees.declareLanguage (h : w.Agrees w') (hc : ctx.Alike ctx')
    {name name' : Spanned String} (hn : name'.value = name.value) :
    (w.declareLanguage ctx name).Agrees (w'.declareLanguage ctx' name') := by
  unfold Walk.declareLanguage
  rw [h.languages, hn, hc.metamodel]
  split
  · exact h
  · refine ⟨?_, rfl, h.imports⟩
    dsimp only
    split
    · exact h.session.reportFault hc.name rfl
    · exact h.session

/-- A fault of an element at the top level is a fatal problem of the unit. -/
theorem hasFatalIn_of_error {languages : NameSet} {d : Declaration}
    {s t : Session} {f : Spanned Fault}
    (h : (d.walk ctx languages true).exec s = (.error f, t)) :
    (t.reportFault ctx.unit f).sink.hasFatalIn ctx.unit.name = true := by
  have hf :=
    (Work.OnlyFatal.recovering ctx.unit).walk languages true d s f t h
  refine (Sink.hasFatalIn_report _ _ _).trans ?_
  unfold Problem.severity
  rw [Problem.source_locate, Problem.diagnostic_locate, BEq.rfl,
    Fault.severity_diagnostic, hf]
  simp

/-- Items that are built alike lead from walks that agree to walks that agree.
-/
theorem Agrees.items {faults : Prop} (hc : ctx.Alike ctx')
    {items items' : List Item}
    (hi : List.Forall₂ (Item.Alike faults ctx ctx') items items')
    (h : w.Agrees w')
    (hf : faults ∨
      (w.items ctx items).sink.hasFatalIn ctx.unit.name = false) :
    (w.items ctx items).Agrees (w'.items ctx' items') ∧
      List.Forall₂ Ending.Alike (w.endings ctx items)
        (w'.endings ctx' items') := by
  induction hi generalizing w w' with
  | nil => exact ⟨h, .nil⟩
  | cons ha _ ih =>
    cases ha with
    | language hn => exact ih (h.declareLanguage hc hn) hf
    | importUnit hn =>
      refine ih ⟨h.session, h.languages, ?_⟩ hf
      dsimp only
      rw [hn, h.imports]
    | @declaration d d' hd =>
      obtain ⟨session, languages, imports, roots⟩ := w'
      obtain ⟨hs', rfl, rfl⟩ := h
      have hd := hd w.languages w.toSession
      rw [Walk.items] at hf
      rw [Walk.items, Walk.items, endings, endings]
      dsimp only at hs' ⊢
      rcases hw : (d.walk ctx w.languages true).exec w.toSession
        with ⟨f | object, s⟩
      · rw [hw] at hf
        rcases hf with hf | hf
        · obtain ⟨f', s', hw', hv, hs⟩ := hd.error hf hs' hw
          rw [hw']
          exact ⟨⟨hs.reportFault hc.name hv, rfl, rfl⟩, .nil⟩
        · cases (hasFatalIn_of_error hw).symm.trans hf
      · rw [hw] at hf
        obtain ⟨s', hw', hs⟩ := hd.ok hs' hw
        have ha : ({ w with toSession := s } : Walk).Agrees
            ⟨s', w.languages, w.imports, roots⟩ := ⟨hs, rfl, rfl⟩
        obtain ⟨hx, he⟩ := ih (ha.collect object) hf
        rw [hw']
        exact ⟨hx, .cons ⟨rfl, hs⟩ he⟩

end Walk

/-! ### Units -/

/-- What a unit leaves behind in alike sessions. -/
structure UnitsAlike (s s' : UnitOutcome × Session)
    (endings endings' : List Ending) : Prop where
  session : s.2.Alike everywhere s'.2
  imports : s'.1.imports = s.1.imports
  endings : List.Forall₂ Ending.Alike endings endings'

namespace Session

variable {s s' : Session} {ctx ctx' : BuildContext}

/-- Trees whose items are built alike are built alike. -/
theorem Alike.walkUnit {faults : Prop} (h : s.Alike everywhere s')
    (hc : ctx.Alike ctx') {tree tree' : SourceTree}
    (ht : SourceTree.ofSource ctx.unit.text = .ok tree)
    (ht' : SourceTree.ofSource ctx'.unit.text = .ok tree')
    (hi : List.Forall₂ (Item.Alike faults ctx ctx') tree.items tree'.items)
    (hf : faults ∨
      (s.walkUnit ctx).2.sink.hasFatalIn ctx.unit.name = false) :
    UnitsAlike (s.walkUnit ctx) (s'.walkUnit ctx') (s.endings ctx)
      (s'.endings ctx') := by
  have hw : (⟨s, .empty, .empty, []⟩ : Walk).Agrees
      ⟨s', .empty, .empty, []⟩ := ⟨h, rfl, rfl⟩
  unfold Session.walkUnit at hf ⊢
  unfold Session.endings
  rw [ht] at hf ⊢
  rw [ht']
  obtain ⟨ha, he⟩ := hw.items hc hi hf
  exact ⟨ha.session, congrArg NameSet.toList ha.imports, he⟩

/-- A unit does on alike sessions what it does. -/
theorem Alike.walkUnit_self (h : s.Alike everywhere s')
    (ctx : BuildContext) :
    UnitsAlike (s.walkUnit ctx) (s'.walkUnit ctx) (s.endings ctx)
      (s'.endings ctx) := by
  cases ht : SourceTree.ofSource ctx.unit.text with
  | ok tree =>
    exact h.walkUnit ⟨rfl, rfl, rfl⟩ ht ht
      (SourceTree.alike_of_unplaced ⟨rfl, rfl, rfl⟩ rfl) (.inl trivial)
  | error diagnostics =>
    unfold Session.walkUnit Session.endings
    rw [ht]
    refine ⟨?_, rfl, .nil⟩
    dsimp only
    clear ht
    induction diagnostics generalizing s s' with
    | nil => exact h
    | cons d rest ih => exact ih (h.report rfl)

end Session

end ModelText
