import ModelText.Proofs.Construction.Walk
import ModelText.Proofs.Graph.Ownership

/-!
# Building keeps the forest

What a unit gives to an object is new: a record is created for the slot that
gets it, and the elements of a block are created before they are attached, each
once. So the walk along the tree of a unit only gives away what is loose, to
something older. A value that replaces a record leaves that behind, loose again.

`Work.Grows` says this of work: the graph becomes another forest, what was loose
stays so, and something is known of the result.
-/

namespace ModelText

open ModelText.Graph (Grows Loose Forest)

/-- In a forest, the work makes another forest of the graph, and what it leads
to is known of its result. -/
def Work.Grows {α : Type} (work : SessionWork α) (but : List ObjectId)
    (s : Session) (Q : α → Graph → Prop) : Prop :=
  s.graph.Forest → ∀ r t, work.exec s = (r, t) →
    s.graph.Grows but t.graph ∧ ∀ a, r = .ok a → Q a t.graph

/-- An object was created, and nobody owns it. -/
structure Graph.Fresh (g h : Graph) (id : ObjectId) (type : StructuredType) :
    Prop where
  loose : h.Loose id type
  new : g.size ≤ id.index

namespace Graph.Fresh

variable {g h k : Graph} {but : List ObjectId} {id : ObjectId}
  {type : StructuredType}

theorem lt_size (h' : g.Fresh h id type) : id.index < h.size :=
  lt_size_of_type? h'.loose.type

/-- What is new stays new while it is loose. -/
theorem grows (h' : g.Fresh h id type) (hk : h.Grows but k) (hid : id ∉ but) :
    g.Fresh k id type :=
  ⟨hk.loose hid h'.loose, h'.new⟩

/-- What was created later was created since. -/
theorem since (h' : h.Fresh k id type) (hg : g.Grows but h) :
    g.Fresh k id type :=
  ⟨h'.loose, Nat.le_trans hg.size_le h'.new⟩

end Graph.Fresh

namespace Work

variable {α β : Type} {s : Session} {but : List ObjectId}
  {work : SessionWork α} {Q : α → Graph → Prop} {R : β → Graph → Prop}

theorem Grows.pure {a : α} (h : s.graph.Forest → Q a s.graph) :
    Grows (pure a) but s Q := by
  rintro hf r t ⟨⟩
  refine ⟨.refl hf, fun a ha => ?_⟩
  cases ha
  exact h hf

theorem Grows.fail (fault : Fault) (span : Span) :
    Grows (fail fault span) but s Q := by
  rintro hf r t ⟨⟩
  exact ⟨.refl hf, nofun⟩

theorem Grows.ofExcept (span : Span) {result : Except Fault α}
    (h : ∀ a, result = .ok a → Q a s.graph) :
    Grows (ofExcept span result) but s Q := by
  cases result with
  | error fault => exact .fail fault span
  | ok a => exact .pure fun _ => h a rfl

theorem Grows.bind {next : α → SessionWork β} (hw : Grows work but s Q)
    (hn : ∀ a t, s.graph.Grows but t.graph → Q a t.graph →
      Grows (next a) but t R) : Grows (work >>= next) but s R := by
  intro hf r t h
  rcases exec_bind_eq h with ⟨f, hr, rfl⟩ | ⟨a, u, hr, h⟩
  · exact ⟨(hw hf _ t hr).1, nofun⟩
  · obtain ⟨hg, ha⟩ := hw hf _ u hr
    obtain ⟨hg', hb⟩ := hn a u hg (ha a rfl) hg.forest r t h
    exact ⟨hg.trans hg', hb⟩

/-- What the second work may give away was created by the first. -/
theorem Grows.bind_forget {next : α → SessionWork β}
    (given : α → List ObjectId) (hw : Grows work [] s Q)
    (hn : ∀ a t, s.graph.Grows [] t.graph → Q a t.graph →
      Grows (next a) (given a) t R ∧ ∀ id ∈ given a, s.graph.size ≤ id.index) :
    Grows (work >>= next) [] s R := by
  intro hf r t h
  rcases exec_bind_eq h with ⟨f, hr, rfl⟩ | ⟨a, u, hr, h⟩
  · exact ⟨(hw hf _ t hr).1, nofun⟩
  · obtain ⟨hg, ha⟩ := hw hf _ u hr
    obtain ⟨hnext, hnew⟩ := hn a u hg (ha a rfl)
    obtain ⟨hg', hb⟩ := hnext hg.forest r t h
    exact ⟨hg.forget hg' hnew, hb⟩

theorem Grows.mono {but' : List ObjectId} (hw : Grows work but s Q)
    (hb : but ⊆ but') : Grows work but' s Q := by
  intro hf r t h
  exact (hw hf r t h).imp_left fun hg => hg.mono hb

end Work

namespace SessionWork

open Work (Grows)

variable {s : Session} {but : List ObjectId}

theorem grows_report (unit : SourceUnit) (f : Spanned Fault) :
    Grows (report unit f) but s fun _ _ => True := by
  rintro hf r t ⟨⟩
  exact ⟨.refl hf, fun _ _ => trivial⟩

theorem grows_recover (unit : SourceUnit) {work : SessionWork Unit}
    (h : Grows work but s fun _ _ => True) :
    Grows (recover unit work) but s fun _ _ => True := by
  intro hf r t hr
  rcases exec_recover_eq hr with hw | ⟨f, u, hw, -, -, rfl⟩
  · exact h hf r t hw
  · exact ⟨(h hf _ u hw).1, fun _ _ => trivial⟩

theorem grows_change (attempt : Attempt) (span : Span)
    {f : Graph → Except Graph.Error Graph}
    (h : s.graph.Forest → ∀ g, f s.graph = .ok g → s.graph.Grows but g) :
    Grows (change attempt span f) but s fun _ _ => True := by
  intro hf r t ht
  cases hg : f s.graph with
  | error e =>
    rw [exec_change_of_error hg] at ht
    cases ht
    exact ⟨.refl hf, fun _ _ => trivial⟩
  | ok g =>
    rw [exec_change_of_ok hg] at ht
    cases ht
    exact ⟨h hf g hg, fun _ _ => trivial⟩

theorem grows_setName (object : ObjectId) (name : Spanned String) :
    Grows (change .name name.span (·.setName object name.value)) but s
      fun _ _ => True := by
  refine grows_change _ _ fun hf g hg => ?_
  rw [Graph.setName_eq_ok hg]
  apply hf.grows_update <;> exact fun _ => rfl

theorem grows_setValue (attempt : Attempt) (span : Span) (slot : Slot)
    (object : ObjectId) {value : Value} (hv : ∀ x, value = .record x →
      object.index < x.index ∧ ∃ type, s.graph.Loose x (.record type)) :
    Grows (change attempt span (·.setValue slot object value))
      value.record?.toList s fun _ _ => True :=
  grows_change attempt span fun hf _ hg => hf.grows_setValue hg hv

theorem grows_instantiate (type : StructuredType) {isRoot : Bool}
    (hr : isRoot = true → ∃ t, type = .object t) :
    Grows (instantiate type isRoot) [] s fun id g =>
      s.graph.Fresh g id type := by
  rintro hf r t ⟨⟩
  obtain ⟨hg, hl⟩ := hf.grows_instantiate type hr
  refine ⟨hg, fun id hi => ?_⟩
  cases hi
  exact ⟨hl, Nat.le_refl _⟩

theorem grows_needLanguage (languages : NameSet) (atTop : Bool) (span : Span) :
    Grows (needLanguage languages atTop span) but s fun _ _ => True := by
  unfold needLanguage
  split
  · exact .fail _ _
  · exact .pure fun _ => trivial

theorem grows_remarkPlace (unit : SourceUnit) (type : ObjectType) (atTop : Bool)
    (typeName : String) (span : Span) :
    Grows (remarkPlace unit type atTop typeName span) but s fun _ _ => True := by
  unfold remarkPlace
  split
  · exact grows_report _ _
  · exact .pure fun _ => trivial

theorem grows_nameObject (object : ObjectId) (name : Option (Spanned String)) :
    Grows (nameObject object name) but s fun _ _ => True := by
  cases name with
  | none => exact .pure fun _ => trivial
  | some name => exact grows_setName object name

theorem grows_create (ctx : BuildContext) (languages : NameSet) (atTop : Bool)
    (typeWord : Spanned String) (name : Option (Spanned String)) (s : Session) :
    Grows (create ctx languages atTop typeWord name) [] s fun a g =>
      s.graph.Fresh g a.1 (.object a.2) := by
  unfold create
  refine .bind (grows_needLanguage _ _ _) fun _ s₁ h₁ _ => ?_
  refine .bind (.ofExcept (Q := fun _ _ => True) _ fun _ _ => trivial)
    fun type s₂ h₂ _ => ?_
  refine .bind (grows_remarkPlace _ _ _ _ _) fun _ s₃ h₃ _ => ?_
  refine .bind (grows_instantiate (.object type) fun _ => ⟨type, rfl⟩)
    fun object s₄ h₄ hnew => ?_
  refine .bind (grows_nameObject _ _) fun _ s₅ h₅ _ => .pure fun _ => ?_
  exact (hnew.grows h₅ List.not_mem_nil).since ((h₁.trans h₂).trans h₃)

/-- A value that is no record may be given to any object. -/
theorem grows_setPlain (attempt : Attempt) (span : Span) (slot : Slot)
    (object : ObjectId) {value : Value} (hv : value.record? = none) :
    Grows (change attempt span (·.setValue slot object value)) [] s
      fun _ _ => True := by
  have h : Grows (change attempt span (·.setValue slot object value))
      value.record?.toList s fun _ _ => True := by
    refine grows_setValue _ _ _ _ ?_
    rintro x rfl
    cases hv
  rw [hv] at h
  exact h

theorem grows_modifiers (ctx : BuildContext) (object : ObjectId)
    (type : StructuredType) (modifiers : List (Spanned String)) (s : Session) :
    Grows (modifiers.forM (applyModifier ctx object type)) [] s
      fun _ _ => True := by
  induction modifiers generalizing s with
  | nil => exact .pure fun _ => trivial
  | cons modifier rest ih =>
    refine .bind (Q := fun _ _ => True) ?_ fun _ t _ _ => ih t
    unfold applyModifier
    refine .bind (.ofExcept (Q := fun a _ => a.2.record? = none) _ ?_)
      fun a t _ hv => grows_setPlain _ _ _ _ hv
    rintro ⟨slot, value⟩ hm
    rcases (StructuredType.modified_eq_ok hm).2 with ⟨rfl, -⟩ | ⟨rfl, -⟩ <;> rfl

theorem grows_declare (ctx : BuildContext) (languages : NameSet) (atTop : Bool)
    (modifiers : List (Spanned String)) (typeWord : Spanned String)
    (name : Option (Spanned String)) (s : Session) :
    Grows (declare ctx languages atTop modifiers typeWord name) [] s fun a g =>
      s.graph.Fresh g a.1 (.object a.2) := by
  unfold declare
  refine .bind (grows_create ctx languages atTop typeWord name s)
    fun a t _ hnew => ?_
  refine .bind (grows_modifiers ctx a.1 _ modifiers t) fun _ u hu _ => ?_
  exact .pure fun _ => hnew.grows hu List.not_mem_nil

/-! ### Values -/

theorem record?_of_value {slot : Slot} {type : TypeInfo} {literal : Literal}
    {value : Value} (h : type.value slot literal = .ok value) :
    value.record? = none := by
  rcases TypeInfo.value_eq_ok h with ⟨type, -, hv⟩ | ⟨e, name, -, -, rfl⟩
  · revert hv
    cases type.kind <;> cases literal <;> rintro ⟨⟩ <;> rfl
  · rfl

/-- A record that a value brings along was created for it. -/
abbrev Brings (s : Session) (value : Value) (g : Graph) : Prop :=
  ∀ x, value = .record x → ∃ type, s.graph.Fresh g x (.record type)

theorem grows_assignBy {object : ObjectId} (hi : object.index < s.graph.size)
    (type : StructuredType) (name : Spanned String)
    {value : Slot → SessionWork Value}
    (hv : ∀ slot, Grows (value slot) [] s (Brings s)) :
    Grows (assignBy object type name value) [] s fun _ _ => True := by
  unfold assignBy
  cases type.slot? name.value with
  | none => exact .fail _ _
  | some slot =>
    refine .bind_forget (·.record?.toList) (hv slot) fun value t _ hb => ⟨?_, ?_⟩
    · refine grows_setValue _ _ _ _ fun x hx => ?_
      obtain ⟨type, hnew⟩ := hb x hx
      exact ⟨Nat.lt_of_lt_of_le hi hnew.new, type, hnew.loose⟩
    · intro x hx
      cases value with
      | record y =>
        rw [List.mem_singleton.1 hx]
        exact (hb y rfl).elim fun _ hnew => hnew.new
      | _ => cases hx

mutual

theorem grows_value (m : Metamodel) (unit : SourceUnit) (slot : Slot)
    (span : Span) (literal : Literal) (s : Session) :
    Grows (value m unit slot span literal) [] s (Brings s) := by
  rw [value]
  cases m.lookup? slot.type with
  | none => exact .fail _ _
  | some type =>
    dsimp only
    split
    · next type fields =>
      refine .bind (grows_instantiate (.record type) nofun)
        fun object t _ hnew => ?_
      refine .bind (grows_assignFields m unit hnew.lt_size _ fields)
        fun _ u hu _ => .pure fun _ x hx => ?_
      cases hx
      exact ⟨type, hnew.grows hu List.not_mem_nil⟩
    · refine .ofExcept _ fun value hv x hx => ?_
      rw [hx] at hv
      cases record?_of_value hv

theorem grows_assignFields (m : Metamodel) (unit : SourceUnit)
    {object : ObjectId} {s : Session} (hi : object.index < s.graph.size)
    (type : StructuredType) (fields : List Field) :
    Grows (assignFields m unit object type fields) [] s fun _ _ => True := by
  cases fields with
  | nil =>
    rw [assignFields]
    exact .pure fun _ => trivial
  | cons field rest =>
    obtain ⟨name, literal, span⟩ := field
    rw [assignFields]
    refine .bind (grows_recover unit (grows_assignBy hi type name fun slot =>
      grows_value m unit slot span literal s)) fun _ t ht _ => ?_
    exact grows_assignFields m unit (Nat.lt_of_lt_of_le hi ht.size_le) type rest

end

theorem grows_assign (m : Metamodel) (unit : SourceUnit) {object : ObjectId}
    (hi : object.index < s.graph.size) (type : StructuredType)
    (name : Spanned String) (literal : Spanned Literal) :
    Grows (assign m unit object type name literal) [] s fun _ _ => True :=
  grows_assignBy hi type name fun slot => grows_value m unit slot _ _ s

theorem grows_link (ctx : BuildContext) {object : ObjectId}
    (hi : object.index < s.graph.size) (type : ObjectType)
    (feature : Spanned String) (path : Spanned (List String)) :
    Grows (link ctx object type feature path) [] s fun _ _ => True := by
  unfold link
  split
  · rintro hf r t ⟨⟩
    exact ⟨.refl hf, fun _ _ => trivial⟩
  · split
    · exact grows_assign _ _ hi _ _ _
    · exact .fail _ _

/-! ### Elements -/

/-- Each of the objects may be attached: it is loose, and younger than what is
to hold it. -/
structure Ready (g : Graph) (parent : ObjectId) (children : List ObjectId) :
    Prop where
  nodup : children.Nodup
  loose : ∀ child ∈ children, parent.index < child.index ∧
    ∃ type, g.Loose child (.object type)

theorem grows_attach (ctx : BuildContext) (span : Span) (composition : Feature)
    (parent : ObjectId) {children : List ObjectId}
    (h : Ready s.graph parent children) :
    Grows (attach ctx span composition parent children) children s
      fun _ _ => True := by
  induction children generalizing s with
  | nil => exact .pure fun _ => trivial
  | cons child rest ih =>
    obtain ⟨hn, hd⟩ := List.nodup_cons.1 h.nodup
    obtain ⟨hi, type, hl⟩ := h.loose child List.mem_cons_self
    have hfirst : Grows (recover ctx.unit (change .attachment span
        (·.addChild composition parent child))) [child] s fun _ _ => True := by
      apply grows_recover
      exact grows_change _ _ fun hf g hg => hf.grows_addChild hg hi hl
    intro hf r t ht
    rcases Work.exec_bind_eq ht with ⟨f, hr, rfl⟩ | ⟨⟨⟩, u, hr, ht⟩
    · exact ⟨(hfirst hf _ t hr).1.mono (by simp), nofun⟩
    · have hg := (hfirst hf _ u hr).1
      have hready : Ready u.graph parent rest := by
        refine ⟨hd, fun other ho => ?_⟩
        obtain ⟨hi, type, hl⟩ := h.loose other (List.mem_cons_of_mem child ho)
        refine ⟨hi, type, hg.loose (fun hm => hn ?_) hl⟩
        rw [← List.mem_singleton.1 hm]
        exact ho
      obtain ⟨hg', hq⟩ := ih hready hg.forest r t ht
      exact ⟨(hg.mono (by simp)).trans (hg'.mono (List.subset_cons_self _ _)), hq⟩

end SessionWork

open Work (Grows)

mutual

theorem grows_walk (ctx : BuildContext) (languages : NameSet) (atTop : Bool)
    (d : Declaration) (s : Session) :
    Grows (d.walk ctx languages atTop) [] s fun id g =>
      ∃ type, s.graph.Fresh g id (.object type) := by
  obtain ⟨modifiers, typeWord, name, members, span⟩ := d
  rw [Declaration.walk]
  refine .bind (SessionWork.grows_declare ctx languages atTop modifiers typeWord
    name s) fun a t _ hnew => ?_
  refine .bind (grows_memberWalk ctx languages hnew.lt_size a.2 members)
    fun _ u hu _ => .pure fun _ => ?_
  exact ⟨a.2, hnew.grows hu List.not_mem_nil⟩

theorem grows_memberWalk (ctx : BuildContext) (languages : NameSet)
    {object : ObjectId} {s : Session} (hi : object.index < s.graph.size)
    (type : ObjectType) (members : List Member) :
    Grows (memberWalk ctx languages object type members) [] s
      fun _ _ => True := by
  cases members with
  | nil =>
    rw [memberWalk]
    exact .pure fun _ => trivial
  | cons member rest =>
    cases member with
    | slot name value =>
      rw [memberWalk]
      refine .bind (SessionWork.grows_recover _ (SessionWork.grows_assign _ _ hi
        _ _ _)) fun _ t ht _ => ?_
      exact grows_memberWalk ctx languages (Nat.lt_of_lt_of_le hi ht.size_le)
        type rest
    | link feature path =>
      rw [memberWalk]
      refine .bind (SessionWork.grows_recover _ (SessionWork.grows_link _ hi
        _ _ _)) fun _ t ht _ => ?_
      exact grows_memberWalk ctx languages (Nat.lt_of_lt_of_le hi ht.size_le)
        type rest
    | block feature declarations span =>
      rw [memberWalk]
      refine .bind (.ofExcept (Q := fun _ _ => True) _ fun _ _ => trivial)
        fun composition t ht _ => ?_
      have hi := Nat.lt_of_lt_of_le hi ht.size_le
      refine .bind_forget id
        (grows_declarationWalk ctx languages declarations t)
        fun children u hu hnew => ⟨?_, ?_⟩
      · have hready : SessionWork.Ready u.graph object children := by
          refine ⟨hnew.1, fun child hc => ?_⟩
          obtain ⟨type, hx⟩ := hnew.2 child hc
          exact ⟨Nat.lt_of_lt_of_le hi hx.new, type, hx.loose⟩
        refine .bind (SessionWork.grows_attach ctx _ _ _ hready)
          fun _ v hv _ => ?_
        refine Grows.mono ?_ (List.nil_subset _)
        exact grows_memberWalk ctx languages (Nat.lt_of_lt_of_le hi
          (Nat.le_trans hu.size_le hv.size_le)) type rest
      · intro child hc
        exact (hnew.2 child hc).elim fun _ hx => hx.new

theorem grows_declarationWalk (ctx : BuildContext) (languages : NameSet)
    (declarations : List Declaration) (s : Session) :
    Grows (declarationWalk ctx languages declarations) [] s fun ids g =>
      ids.Nodup ∧ ∀ id ∈ ids, ∃ type, s.graph.Fresh g id (.object type) := by
  cases declarations with
  | nil =>
    rw [declarationWalk]
    exact .pure fun _ => ⟨List.nodup_nil, nofun⟩
  | cons d rest =>
    rw [declarationWalk]
    refine .bind (grows_walk ctx languages false d s) fun object t ht hnew => ?_
    obtain ⟨type, hnew⟩ := hnew
    refine .bind (grows_declarationWalk ctx languages rest t)
      fun others u hu hothers => .pure fun _ => ⟨?_, fun id hid => ?_⟩
    · refine List.nodup_cons.2 ⟨fun hm => ?_, hothers.1⟩
      obtain ⟨_, hx⟩ := hothers.2 object hm
      exact Nat.not_lt.2 hx.new hnew.lt_size
    · rcases List.mem_cons.1 hid with rfl | hid
      · exact ⟨type, hnew.grows hu List.not_mem_nil⟩
      · obtain ⟨type, hx⟩ := hothers.2 id hid
        exact ⟨type, hx.since ht⟩

end

/-! ### Units -/

theorem Walk.forest_items (ctx : BuildContext) (items : List Item) {w : Walk}
    (h : w.graph.Forest) : (Walk.items ctx items w).graph.Forest := by
  induction items generalizing w with
  | nil => exact h
  | cons item rest ih =>
    cases item with
    | language name =>
      refine ih ?_
      unfold declareLanguage
      split
      · exact h
      · dsimp only
        split <;> exact h
    | importUnit name => exact ih h
    | declaration d =>
      unfold items
      split
      · rename_i object s hx
        refine ih ?_
        rw [toSession_collect]
        exact (grows_walk ctx w.languages true d w.toSession h _ s hx).1.forest
      · rename_i f s hx
        exact (grows_walk ctx w.languages true d w.toSession h _ s hx).1.forest

theorem Session.graph_foldl_reportIn (unit : SourceUnit)
    (diagnostics : List Diagnostic) (s : Session) :
    (diagnostics.foldl (·.reportIn unit ·) s).graph = s.graph := by
  induction diagnostics generalizing s with
  | nil => rfl
  | cons d rest ih => exact ih (s.reportIn unit d)

/-- A unit keeps the forest. -/
theorem Session.forest_walkUnit (ctx : BuildContext) {s : Session}
    (h : s.graph.Forest) : (s.walkUnit ctx).2.graph.Forest := by
  unfold walkUnit
  split
  · dsimp only
    rw [graph_foldl_reportIn]
    exact h
  · exact Walk.forest_items ctx _ h

end ModelText
