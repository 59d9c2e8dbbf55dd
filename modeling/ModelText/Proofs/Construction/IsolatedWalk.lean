import ModelText.Proofs.Construction.Isolation

/-!
# The walk along a tree is isolated

Every piece of the walk does behind any session what it does to a session of
its own. The proof follows the tree. An element is there while its members are
built; the elements of a block came after it, each of them once, and nobody holds
them before they are attached.
-/

namespace ModelText

open Work (Isolated)

/-- One piece of work after another. Each of them keeps places. -/
theorem Work.Isolated.andThen {α β : Type} {source : String} {s : Session}
    {work : SessionWork α} {there : Nat → SessionWork α} {move : Nat → α → α}
    {post : α → Graph → Prop} {next : α → SessionWork β}
    {next' : Nat → α → SessionWork β} {move' : Nat → β → β}
    {post' : β → Graph → Prop}
    (hw : Isolated source work there move s (Graph.Keeps [] s.graph) post)
    (hn : ∀ a t, Graph.Keeps [] s.graph t.graph → post a t.graph →
      Isolated source (next a) (fun n => next' n (move n a)) move' t
        (Graph.Keeps [] t.graph) post') :
    Isolated source (work >>= next) (fun n => there n >>= next' n) move' s
      (Graph.Keeps [] s.graph) post' :=
  hw.bind fun a t hk hp => (hn a t hk hp).mono (fun _ h => hk.trans h)
    fun _ _ _ h => h

theorem Work.Isolated.skip {source : String} (s : Session) :
    Isolated source (Pure.pure () : SessionWork Unit)
      (fun _ => Pure.pure ())
      (fun _ => id) s (Graph.Keeps [] s.graph) fun _ _ => True := by
  refine .pure (fun _ => rfl) ?_ trivial
  exact .refl [] s.graph

/-- A question to the metamodel has the same answer everywhere. -/
theorem Work.isolated_ofExcept {α : Type} {source : String} (span : Span)
    (result : Except Fault α) (s : Session) :
    Isolated source (Work.ofExcept span result)
      (fun _ => Work.ofExcept span result) (fun _ a => a) s
      (Graph.Keeps [] s.graph) fun _ _ => True :=
  .ofExcept span (.refl _ _) (fun _ _ _ => rfl) fun _ _ => trivial

namespace SessionWork

variable {source : String} {s : Session} {object : ObjectId}

theorem isolated_instantiate (type : StructuredType) (isRoot : Bool) :
    Isolated source (instantiate type isRoot) (fun _ => instantiate type isRoot)
      ObjectId.shift s (Graph.Keeps [] s.graph)
      fun id g => s.graph.size ≤ id.index ∧ g.Free id where
  kept r t h := by
    cases h
    exact Graph.keeps_instantiate _ _ _
  post a t h := by
    cases h
    exact ⟨Nat.le_refl _, Graph.free_instantiate _ _ _⟩
  same r t h base := by
    cases h
    have hi := Graph.instantiate_append base.graph s.graph type isRoot
    simp only [instantiate, Work.exec_modifyGet, Session.append, Except.map, hi]
    rfl

/-- An object that is there is named. -/
theorem isolated_setName {o : Object} (ho : s.graph.object? object = some o)
    (attempt : Attempt) (span : Span) (name : String) :
    Isolated source (change attempt span (·.setName object name))
      (fun n => change attempt span (·.setName (object.shift n) name))
      (fun _ => id) s (Graph.Keeps [] s.graph) fun _ _ => True := by
  apply isolated_change attempt span (.refl _ _)
    fun base => base.setName_append ho name
  intro g hg
  rw [Graph.setName_eq, ho] at hg
  cases hg
  exact Graph.keeps_update fun _ _ => rfl

/-- A slot of an object that is there is given a value. -/
theorem isolated_setValue {o : Object} (ho : s.graph.object? object = some o)
    (attempt : Attempt) (span : Span) (slot : Slot) {value : Value}
    {value' : Nat → Value} (hv : ∀ n, value' n = value.rename (.shift n)) :
    Isolated source (change attempt span (·.setValue slot object value))
      (fun n => change attempt span
        (·.setValue slot (object.shift n) (value' n)))
      (fun _ => id) s (Graph.Keeps [] s.graph) fun _ _ => True := by
  apply isolated_change attempt span (.refl _ _)
  · intro base
    rw [hv]
    exact base.setValue_append ho slot value
  · intro g hg
    rw [Graph.setValue_eq, ho] at hg
    cases hg
    exact Graph.keeps_update fun _ _ => rfl

/-- An object that nobody holds is attached. -/
theorem isolated_addChild {o : Object} (ho : s.graph.object? object = some o)
    {child : ObjectId} (hc : s.graph.Free child) (attempt : Attempt)
    (span : Span) (composition : Feature) :
    Isolated source (change attempt span (·.addChild composition object child))
      (fun n => change attempt span
        (·.addChild composition (object.shift n) (child.shift n)))
      (fun _ => id) s (Graph.Keeps [child] s.graph) fun _ _ => True := by
  obtain ⟨held, hh, hp⟩ := hc
  apply isolated_change attempt span (.refl _ _)
    fun base => base.addChild_append ho hh hp composition
  intro g hg
  rw [Graph.addChild_eq, ho, hh] at hg
  simp only [hp, Option.isSome_none, Bool.false_eq_true, if_false] at hg
  split at hg
  · cases hg
  · split at hg
    · cases hg
    · cases hg
      have hp : Graph.Keeps [child] s.graph
          (s.graph.update object (·.hold composition.name child)) :=
        Graph.keeps_update fun _ _ => rfl
      have hm : child ∈ [child] := List.mem_singleton.2 rfl
      refine hp.trans ?_
      exact Graph.keeps_update fun hn => absurd hm hn

theorem isolated_defer (request : LinkRequest) :
    Isolated source (defer request)
      (fun n => defer (request.rename (ObjectId.shift n)))
      (fun _ => id) s (Graph.Keeps [] s.graph) fun _ _ => True where
  kept r t h := by
    cases h
    exact .refl _ _
  post _ _ _ := trivial
  same r t h base := by
    cases h
    simp [defer, Session.append, Except.map]

theorem isolated_deferLink (ctx : BuildContext) (reference : Feature)
    (path : List String) (span : Span) :
    Isolated source (deferLink ctx object reference path span)
      (fun n => deferLink ctx (object.shift n) reference path span)
      (fun _ => id) s (Graph.Keeps [] s.graph) fun _ _ => True := by
  unfold deferLink
  exact isolated_defer
    { source := ctx.unit.name
      position := .ofOffset ctx.unit.text span.start
      span := span
      scope := object
      reference := reference
      path := path }

/-! ### Headers -/

theorem isolated_needLanguage (languages : NameSet) (atTop : Bool)
    (span : Span) (s : Session) :
    Isolated source (needLanguage languages atTop span)
      (fun _ => needLanguage languages atTop span) (fun _ => id) s
      (Graph.Keeps [] s.graph) fun _ _ => True := by
  unfold needLanguage
  split
  · exact .fail _ _ (.refl _ _)
  · exact .skip s

theorem isolated_remarkPlace (unit : SourceUnit) (type : ObjectType)
    (atTop : Bool) (typeName : String) (span : Span) (s : Session) :
    Isolated unit.name (remarkPlace unit type atTop typeName span)
      (fun _ => remarkPlace unit type atTop typeName span) (fun _ => id) s
      (Graph.Keeps [] s.graph) fun _ _ => True := by
  unfold remarkPlace
  split
  · exact isolated_report _ _ (.refl _ _)
  · exact .skip s

theorem isolated_nameObject (hf : s.graph.Free object)
    (name : Option (Spanned String)) :
    Isolated source (nameObject object name)
      (fun n => nameObject (object.shift n) name) (fun _ => id) s
      (Graph.Keeps [] s.graph) fun _ _ => True := by
  obtain ⟨o, ho, -⟩ := hf
  cases name with
  | none => exact .skip s
  | some name => exact isolated_setName ho _ _ _

theorem isolated_create (ctx : BuildContext) (languages : NameSet)
    (atTop : Bool) (typeWord : Spanned String)
    (name : Option (Spanned String)) (s : Session) :
    Isolated ctx.unit.name (create ctx languages atTop typeWord name)
      (fun _ => create ctx languages atTop typeWord name)
      (fun n created => (created.1.shift n, created.2)) s
      (Graph.Keeps [] s.graph)
      fun created g => s.graph.size ≤ created.1.index ∧ g.Free created.1 := by
  unfold create
  refine .andThen (isolated_needLanguage _ _ _ s) fun _ s₁ hk₁ _ => ?_
  refine .andThen (Work.isolated_ofExcept _ _ s₁) fun type s₂ hk₂ _ => ?_
  refine .andThen (isolated_remarkPlace _ type _ _ _ s₂) fun _ s₃ hk₃ _ => ?_
  refine .andThen (isolated_instantiate _ _) fun object s₄ hk₄ hf => ?_
  refine .andThen (isolated_nameObject hf.2 name) fun _ s₅ hk₅ _ => ?_
  have hs := ((hk₁.trans hk₂).trans hk₃).size_le
  refine .pure (fun _ => rfl) ?_ ?_
  · exact .refl [] s₅.graph
  · exact ⟨Nat.le_trans hs hf.1, hk₅.free List.not_mem_nil hf.2⟩

theorem isolated_applyModifier (ctx : BuildContext) (type : StructuredType)
    (modifier : Spanned String) {o : Object}
    (ho : s.graph.object? object = some o) :
    Isolated ctx.unit.name (applyModifier ctx object type modifier)
      (fun n => applyModifier ctx (object.shift n) type modifier) (fun _ => id)
      s (Graph.Keeps [] s.graph) fun _ _ => True := by
  -- What a modifier stands for is no record.
  have hv : ∀ assignment : Slot × Value,
      type.modified ctx.metamodel modifier.value = .ok assignment →
        ∀ n, assignment.2.rename (ObjectId.shift n) = assignment.2 := by
    rintro ⟨slot, value⟩ h n
    rcases (StructuredType.modified_eq_ok h).2 with ⟨rfl, -⟩ | ⟨rfl, -⟩
    · rfl
    · rfl
  have hm : Isolated ctx.unit.name
      (Work.ofExcept modifier.span (type.modified ctx.metamodel modifier.value))
      (fun _ => Work.ofExcept modifier.span
        (type.modified ctx.metamodel modifier.value))
      (fun _ assignment => assignment) s (Graph.Keeps [] s.graph)
      fun assignment _ =>
        ∀ n, assignment.2.rename (ObjectId.shift n) = assignment.2 :=
    .ofExcept _ (.refl _ _) (fun _ _ _ => rfl) hv
  unfold applyModifier
  refine .andThen hm fun ⟨slot, value⟩ t hk hn => ?_
  obtain ⟨o', ho', -⟩ := hk _ o ho
  exact isolated_setValue ho' _ _ slot fun n => (hn n).symm

theorem isolated_modifiers (ctx : BuildContext) (type : StructuredType)
    (modifiers : List (Spanned String)) {o : Object}
    (ho : s.graph.object? object = some o) :
    Isolated ctx.unit.name (modifiers.forM (applyModifier ctx object type))
      (fun n => modifiers.forM (applyModifier ctx (object.shift n) type))
      (fun _ => id) s (Graph.Keeps [] s.graph) fun _ _ => True := by
  induction modifiers generalizing s o with
  | nil => exact .skip s
  | cons modifier rest ih =>
    refine .andThen (isolated_applyModifier ctx type modifier ho)
      fun _ t hk _ => ?_
    obtain ⟨o', ho', -⟩ := hk _ o ho
    exact ih ho'

theorem isolated_declare (ctx : BuildContext) (languages : NameSet)
    (atTop : Bool) (modifiers : List (Spanned String))
    (typeWord : Spanned String) (name : Option (Spanned String))
    (s : Session) :
    Isolated ctx.unit.name
      (declare ctx languages atTop modifiers typeWord name)
      (fun _ => declare ctx languages atTop modifiers typeWord name)
      (fun n created => (created.1.shift n, created.2)) s
      (Graph.Keeps [] s.graph)
      fun created g => s.graph.size ≤ created.1.index ∧ g.Free created.1 := by
  unfold declare
  refine .andThen (isolated_create ctx languages atTop typeWord name s) ?_
  rintro ⟨object, type⟩ t hk ⟨hs, o, ho, hp⟩
  refine .andThen (isolated_modifiers ctx (.object type) modifiers ho)
    fun _ u hk' _ => ?_
  refine .pure (fun _ => rfl) ?_ ?_
  · exact .refl [] u.graph
  · exact ⟨hs, hk'.free List.not_mem_nil ⟨o, ho, hp⟩⟩

/-! ### Slots and links -/

/-- A single literal is no record. -/
theorem rename_of_value {f : ObjectId → ObjectId} {slot : Slot}
    {type : TypeInfo} {literal : Literal} {value : Value}
    (h : type.value slot literal = .ok value) : value.rename f = value := by
  rcases TypeInfo.value_eq_ok h with ⟨p, -, hp⟩ | ⟨e, name, -, -, rfl⟩
  · unfold PrimitiveKind.value? at hp
    split at hp <;> cases hp <;> rfl
  · rfl

theorem isolated_assignBy {type : StructuredType} {name : Spanned String}
    {value : Slot → SessionWork Value} {o : Object}
    (ho : s.graph.object? object = some o)
    (hv : ∀ slot, Isolated source (value slot) (fun _ => value slot)
      (fun n => Value.rename (.shift n)) s (Graph.Keeps [] s.graph)
      fun _ _ => True) :
    Isolated source (assignBy object type name value)
      (fun n => assignBy (object.shift n) type name value) (fun _ => id) s
      (Graph.Keeps [] s.graph) fun _ _ => True := by
  unfold assignBy
  cases type.slot? name.value with
  | none => exact .fail _ _ (.refl _ _)
  | some slot =>
    refine .andThen (hv slot) fun value t hk _ => ?_
    obtain ⟨o', ho', -⟩ := hk _ o ho
    exact isolated_setValue ho' _ _ slot fun _ => rfl

mutual

theorem isolated_value (m : Metamodel) (unit : SourceUnit) (slot : Slot)
    (span : Span) (literal : Literal) (s : Session) :
    Isolated unit.name (value m unit slot span literal)
      (fun _ => value m unit slot span literal)
      (fun n => Value.rename (.shift n)) s (Graph.Keeps [] s.graph)
      fun _ _ => True := by
  have hs : ∀ type : TypeInfo, Isolated unit.name
      (Work.ofExcept span (type.value slot literal))
      (fun _ => Work.ofExcept span (type.value slot literal))
      (fun n => Value.rename (.shift n)) s (Graph.Keeps [] s.graph)
      fun _ _ => True := fun type =>
    .ofExcept span (.refl _ _) (fun _ _ => rename_of_value)
      fun _ _ => trivial
  cases literal with
  | record fields =>
    rw [value]
    cases m.lookup? slot.type with
    | none => exact .fail _ _ (.refl _ _)
    | some type =>
      cases type with
      | record type =>
        refine .andThen (isolated_instantiate _ _) fun object t _ hf => ?_
        obtain ⟨-, o, ho, -⟩ := hf
        refine .andThen (isolated_assignFields m unit object _ fields t ho)
          fun _ u _ _ => ?_
        refine .pure (fun _ => rfl) ?_ trivial
        exact .refl [] u.graph
      | object type => exact hs (.object type)
      | enumerated type => exact hs (.enumerated type)
      | primitive type => exact hs (.primitive type)
  | _ =>
    rw [value]
    cases m.lookup? slot.type with
    | none => exact .fail _ _ (.refl _ _)
    | some type => cases type <;> exact hs _

theorem isolated_assignFields (m : Metamodel) (unit : SourceUnit)
    (object : ObjectId) (type : StructuredType) (fields : List Field)
    (s : Session) {o : Object} (ho : s.graph.object? object = some o) :
    Isolated unit.name (assignFields m unit object type fields)
      (fun n => assignFields m unit (object.shift n) type fields)
      (fun _ => id) s (Graph.Keeps [] s.graph) fun _ _ => True := by
  cases fields with
  | nil =>
    simp only [assignFields]
    exact .skip s
  | cons field rest =>
    obtain ⟨name, literal, span⟩ := field
    simp only [assignFields]
    refine .andThen (isolated_recover unit (isolated_assignBy ho fun slot => ?_))
      fun _ t hk _ => ?_
    · exact isolated_value m unit slot span literal s
    · obtain ⟨o', ho', -⟩ := hk _ o ho
      exact isolated_assignFields m unit object type rest t ho'

end

theorem isolated_assign (ctx : BuildContext) (type : StructuredType)
    (name : Spanned String) (literal : Spanned Literal) {o : Object}
    (ho : s.graph.object? object = some o) :
    Isolated ctx.unit.name
      (assign ctx.metamodel ctx.unit object type name literal)
      (fun n => assign ctx.metamodel ctx.unit (object.shift n) type name
        literal)
      (fun _ => id) s (Graph.Keeps [] s.graph) fun _ _ => True :=
  isolated_assignBy ho fun _ => isolated_value _ _ _ _ _ s

theorem isolated_link (ctx : BuildContext) (type : ObjectType)
    (feature : Spanned String) (path : Spanned (List String)) {o : Object}
    (ho : s.graph.object? object = some o) :
    Isolated ctx.unit.name (link ctx object type feature path)
      (fun n => link ctx (object.shift n) type feature path) (fun _ => id) s
      (Graph.Keeps [] s.graph) fun _ _ => True := by
  unfold link
  cases type.reference? feature.value with
  | some reference => exact isolated_deferLink ctx reference _ _
  | none =>
    cases type.literalName? feature.value path.value with
    | none => exact .fail _ _ (.refl _ _)
    | some name => exact isolated_assign ctx (.object type) _ _ ho

/-! ### Blocks -/

/-- Elements that nobody holds, each of them once, are attached. -/
theorem isolated_attach (ctx : BuildContext) (span : Span)
    (composition : Feature) {children : List ObjectId} {o : Object}
    (ho : s.graph.object? object = some o) (hd : children.Nodup)
    (hf : ∀ child ∈ children, s.graph.Free child) :
    Isolated ctx.unit.name (attach ctx span composition object children)
      (fun n => attach ctx span composition (object.shift n)
        (children.map (.shift n)))
      (fun _ => id) s (Graph.Keeps children s.graph) fun _ _ => True := by
  induction children generalizing s o with
  | nil => exact (Work.Isolated.skip s).mono (fun _ h => h) fun _ _ _ h => h
  | cons child rest ih =>
    have hc := isolated_recover ctx.unit (isolated_addChild ho
      (hf child List.mem_cons_self) .attachment span composition)
    have hx : Isolated ctx.unit.name _ _ _ s (Graph.Keeps (child :: rest) s.graph)
        fun _ g => Graph.Keeps [child] s.graph g :=
      hc.mono (fun _ h => h.mono (by simp)) fun _ _ h _ => h
    refine hx.bind fun _ t hk hk' => ?_
    obtain ⟨o', ho', -⟩ := hk _ o ho
    obtain ⟨hn, hd⟩ := List.nodup_cons.1 hd
    refine (ih ho' hd fun other hm => ?_).mono
      (fun _ h => hk.trans (h.mono (by simp))) fun _ _ _ h => h
    refine hk'.free ?_ (hf other (List.mem_cons_of_mem _ hm))
    rw [List.mem_singleton]
    rintro rfl
    exact hn hm

end SessionWork

/-! ### Elements -/

mutual

theorem isolated_walk (ctx : BuildContext) (languages : NameSet)
    (atTop : Bool) (d : Declaration) (s : Session) :
    Isolated ctx.unit.name (d.walk ctx languages atTop)
      (fun _ => d.walk ctx languages atTop) ObjectId.shift s
      (Graph.Keeps [] s.graph)
      fun object g => s.graph.size ≤ object.index ∧ g.Free object := by
  obtain ⟨modifiers, typeWord, name, members, span⟩ := d
  rw [Declaration.walk]
  refine .andThen (SessionWork.isolated_declare ctx languages atTop modifiers
    typeWord name s) ?_
  rintro ⟨object, type⟩ t hk ⟨hs, o, ho, hp⟩
  refine .andThen (isolated_memberWalk ctx languages type members t ho)
    fun _ u hk' _ => ?_
  refine .pure (fun _ => rfl) ?_ ?_
  · exact .refl [] u.graph
  · exact ⟨hs, hk'.free List.not_mem_nil ⟨o, ho, hp⟩⟩

theorem isolated_memberWalk (ctx : BuildContext) (languages : NameSet)
    {object : ObjectId} (type : ObjectType) (members : List Member)
    (s : Session) {o : Object} (ho : s.graph.object? object = some o) :
    Isolated ctx.unit.name (memberWalk ctx languages object type members)
      (fun n => memberWalk ctx languages (object.shift n) type members)
      (fun _ => id) s (Graph.Keeps [] s.graph) fun _ _ => True := by
  cases members with
  | nil =>
    simp only [memberWalk]
    exact .skip s
  | cons member rest =>
    cases member with
    | slot name value =>
      simp only [memberWalk]
      refine .andThen (SessionWork.isolated_recover ctx.unit
        (SessionWork.isolated_assign ctx _ name value ho)) fun _ t hk _ => ?_
      obtain ⟨o', ho', -⟩ := hk _ o ho
      exact isolated_memberWalk ctx languages type rest t ho'
    | link feature path =>
      simp only [memberWalk]
      refine .andThen (SessionWork.isolated_recover ctx.unit
        (SessionWork.isolated_link ctx type feature path ho))
        fun _ t hk _ => ?_
      obtain ⟨o', ho', -⟩ := hk _ o ho
      exact isolated_memberWalk ctx languages type rest t ho'
    | block feature declarations span =>
      simp only [memberWalk]
      refine .andThen (Work.isolated_ofExcept _ _ s) fun composition t hk _ => ?_
      obtain ⟨o', ho', -⟩ := hk _ o ho
      -- The elements of the block are attached within the same stretch, so
      -- that their places do not count.
      refine .bind (isolated_declarationWalk ctx languages declarations t)
        fun children u hk' hf => ?_
      obtain ⟨hd, hf⟩ := hf
      obtain ⟨o'', ho'', -⟩ := hk' _ o' ho'
      have ha := SessionWork.isolated_attach ctx feature.span composition ho''
        hd fun child hm => (hf child hm).2
      refine .bind (ha.mono (fun _ h => hk'.forget h fun child hm =>
        (hf child hm).1) fun _ _ _ h => h) fun _ v hk'' _ => ?_
      obtain ⟨o₃, ho₃, -⟩ := hk'' _ o' ho'
      exact (isolated_memberWalk ctx languages type rest v ho₃).mono
        (fun _ h => hk''.trans h) fun _ _ _ h => h

theorem isolated_declarationWalk (ctx : BuildContext) (languages : NameSet)
    (declarations : List Declaration) (s : Session) :
    Isolated ctx.unit.name (declarationWalk ctx languages declarations)
      (fun _ => declarationWalk ctx languages declarations)
      (fun n => List.map (ObjectId.shift n)) s (Graph.Keeps [] s.graph)
      fun objects g => objects.Nodup ∧
        ∀ object ∈ objects, s.graph.size ≤ object.index ∧ g.Free object := by
  cases declarations with
  | nil =>
    rw [declarationWalk]
    refine .pure (fun _ => rfl) ?_ ?_
    · exact .refl [] s.graph
    · exact ⟨List.nodup_nil, fun _ h => absurd h List.not_mem_nil⟩
  | cons d rest =>
    rw [declarationWalk]
    refine .andThen (isolated_walk ctx languages false d s)
      fun object t hk hf => ?_
    refine .andThen (isolated_declarationWalk ctx languages rest t)
      fun others u hk' ho => ?_
    refine .pure (fun _ => rfl) ?_ ?_
    · exact .refl [] u.graph
    · obtain ⟨o, ht, -⟩ := hf.2
      have hi := Graph.lt_size_of_object? ht
      refine ⟨List.nodup_cons.2 ⟨fun hm => ?_, ho.1⟩, ?_⟩
      · have := (ho.2 object hm).1
        omega
      · rintro other (_ | ⟨_, hm⟩)
        · exact ⟨hf.1, hk'.free List.not_mem_nil hf.2⟩
        · exact ⟨Nat.le_trans hk.size_le (ho.2 other hm).1, (ho.2 other hm).2⟩

end

end ModelText
