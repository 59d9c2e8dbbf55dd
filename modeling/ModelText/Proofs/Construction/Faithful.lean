import ModelText.Proofs.Construction.Clean
import ModelText.Proofs.Construction.Closed
import ModelText.Proofs.Construction.Fatal
import ModelText.Proofs.Construction.Filling

/-!
# Clean units lose nothing

When the session is clean behind a unit, the graph shows all declarations of the
unit. The proof follows the tree. `Session.Creates` is what a header does to a
session, and `Session.Adds` what members do: the element comes to hold more, its
links are put aside, and the elements of the blocks are created. What was shown
before is shown behind further members and declarations, because these spare the
elements that are there.
-/

namespace ModelText

variable {c : Catalog}

/-! ### Headers -/

/-- Between the sessions an element was created. It holds nothing yet. -/
structure Session.Creates (s : Session) (object : ObjectId) (type : ObjectType)
    (name : Option String) (t : Session) : Prop where
  spares : s.Spares [] t
  elements : t.graph.elements = s.graph.elements ++ [object]
  type : t.graph.type? object = some (.object type)
  name : t.graph.name? object = name
  held : ∀ feature, t.graph.childrenOf object feature = []
  requests : t.requests = s.requests

namespace Session

variable {s t u : Session} {object : ObjectId} {type : ObjectType}
  {name : Option String}

theorem Fills.creates (h : s.Fills t) (h' : t.Creates object type name u) :
    s.Creates object type name u where
  spares := (h.spares []).trans h'.spares
  elements := by rw [h'.elements, h.elements]
  type := h'.type
  name := h'.name
  held := h'.held
  requests := h'.requests.trans h.requests

theorem Creates.fills (h : s.Creates object type name t) (h' : t.Fills u) :
    s.Creates object type name u where
  spares := h.spares.trans (h'.spares [])
  elements := h'.elements.trans h.elements
  type := h'.graph.type? h.type
  name := (h'.graph.name? h.type).trans h.name
  held feature :=
    (h'.graph.childrenOf h.type List.not_mem_nil feature).trans (h.held feature)
  requests := h'.requests.trans h.requests

theorem Creates.le_index (h : s.Creates object type name t) :
    s.graph.size ≤ object.index :=
  h.spares.graph.le_of_elements h.elements (List.mem_singleton.2 rfl)

/-- No link of a new element waits. -/
theorem Creates.waiting (h : s.Creates object type name t) (hs : s.Closed)
    (feature : String) : t.waiting object feature = [] := by
  unfold Session.waiting
  rw [h.requests]
  apply LinkRequest.paths_eq_nil
  intro r hr he
  have hi := hs.requests r hr
  have := h.le_index
  rw [he] at hi
  omega

theorem creates_instantiate (s : Session) (type : ObjectType) (isRoot : Bool) :
    s.Creates (s.graph.instantiate (.object type) isRoot).1 type none
      { s with graph := (s.graph.instantiate (.object type) isRoot).2 } := by
  have ho : (s.graph.instantiate (.object type) isRoot).2.object?
      (s.graph.instantiate (.object type) isRoot).1 =
        some (.new (.object type)) := by
    rw [Graph.object?_instantiate]
    exact if_pos rfl
  constructor
  · refine ⟨Graph.spares_instantiate _ _ _, [], (List.append_nil _).symm, ?_⟩
    exact fun _ h => by cases h
  · exact Graph.elements_instantiate _ _ _
  · exact Graph.type?_of_object? ho
  · exact congrArg (·.bind Object.name) ho
  · exact fun feature =>
      congrArg (fun o => (o.map (Object.held · feature)).getD []) ho
  · rfl

/-- A new element is given its name. -/
theorem Creates.setName (h : s.Creates object type none t) {g : Graph}
    {name : String} (hg : t.graph.setName object name = .ok g) :
    s.Creates object type (some name) { t with graph := g } := by
  obtain ⟨o, ho, -⟩ := Option.map_eq_some_iff.1 h.type
  obtain rfl := Graph.setName_eq_ok hg
  constructor
  · obtain ⟨more, hm, hs⟩ := h.spares.requests
    refine ⟨fun id o hid => ?_, more, hm, hs⟩
    have hlt := Graph.lt_size_of_object? hid
    have hle := h.le_index
    obtain ⟨o', ho', hx⟩ := h.spares.graph id o hid
    refine ⟨o', ?_, hx⟩
    rw [Graph.object?_update, if_neg]
    · exact ho'
    · rintro rfl
      omega
  · refine (Graph.elements_update ?_).trans h.elements
    exact fun _ => rfl
  · refine (Graph.type?_update ?_).trans h.type
    exact fun _ => rfl
  · simp [Graph.name?, Graph.object?_update, ho]
  · intro feature
    have hheld := h.held feature
    simp only [Graph.childrenOf, ho, Graph.object?_update] at hheld ⊢
    exact hheld
  · exact h.requests

end Session

namespace SessionWork

variable {ctx : BuildContext} {s t : Session} {object : ObjectId}
  {type : ObjectType}

theorem creates_create {languages : NameSet} {atTop : Bool}
    {typeWord : Spanned String} {name : Option (Spanned String)}
    (h : (create ctx languages atTop typeWord name).exec s =
      (.ok (object, type), t)) :
    ctx.metamodel.elementType languages (Text.capitalized typeWord.value) =
        .ok type ∧
      s.Creates object type (name.map (·.value)) t := by
  unfold create at h
  obtain ⟨_, s₁, h₁, h⟩ := Work.exec_bind_eq_ok h
  obtain ⟨found, s₂, h₂, h⟩ := Work.exec_bind_eq_ok h
  obtain ⟨_, s₃, h₃, h⟩ := Work.exec_bind_eq_ok h
  obtain ⟨created, s₄, h₄, h⟩ := Work.exec_bind_eq_ok h
  obtain ⟨_, s₅, h₅, h⟩ := Work.exec_bind_eq_ok h
  cases h
  have hfills := ((fills_needLanguage _ _ _ s _ _ h₁).trans
    (Work.Fills.ofExcept _ _ _ _ h₂)).trans
    (fills_remarkPlace _ _ _ _ _ s₂ _ _ h₃)
  cases h₄
  have hcreates := s₃.creates_instantiate type type.isRoot
  refine ⟨(Work.exec_ofExcept_eq_ok h₂).1, ?_⟩
  apply hfills.creates
  cases name with
  | none =>
    cases h₅
    exact hcreates
  | some name =>
    unfold nameObject at h₅
    cases hg : (s₃.graph.instantiate (.object type) type.isRoot).2.setName
        (s₃.graph.instantiate (.object type) type.isRoot).1 name.value with
    | error e =>
      rw [exec_change_of_error hg] at h₅
      cases h₅
    | ok g =>
      rw [exec_change_of_ok hg] at h₅
      cases h₅
      exact hcreates.setName hg

theorem creates_declare {languages : NameSet} {atTop : Bool}
    {modifiers : List (Spanned String)} {typeWord : Spanned String}
    {name : Option (Spanned String)}
    (h : (declare ctx languages atTop modifiers typeWord name).exec s =
      (.ok (object, type), t)) :
    ctx.metamodel.elementType languages (Text.capitalized typeWord.value) =
        .ok type ∧
      s.Creates object type (name.map (·.value)) t := by
  unfold declare at h
  obtain ⟨⟨created, found⟩, s₁, h₁, h⟩ := Work.exec_bind_eq_ok h
  obtain ⟨_, s₂, h₂, h⟩ := Work.exec_bind_eq_ok h
  cases h
  obtain ⟨he, hcreates⟩ := creates_create h₁
  exact ⟨he, hcreates.fills (fills_modifiers ctx object _ modifiers s₁ _ _ h₂)⟩

end SessionWork

/-! ### Members -/

/-- Between the sessions an element came to hold more by each feature, links of
its references were put aside, and elements were created. -/
structure Session.Adds (s : Session) (object : ObjectId) (type : ObjectType)
    (held : String → List ObjectId) (ids : List ObjectId)
    (paths : String → List (List String)) (t : Session) : Prop where
  spares : s.Spares [object] t
  held : ∀ feature, t.graph.childrenOf object feature =
    s.graph.childrenOf object feature ++ held feature
  elements : t.graph.elements = s.graph.elements ++ ids
  waiting : ∀ feature reference, type.reference? feature = some reference →
    t.waiting object feature = s.waiting object feature ++ paths feature

namespace Session

variable {s t u : Session} {object : ObjectId} {type : ObjectType}
  {held held' : String → List ObjectId} {ids ids' : List ObjectId}
  {paths paths' : String → List (List String)}

theorem Adds.trans (h : s.Adds object type held ids paths t)
    (h' : t.Adds object type held' ids' paths' u) :
    s.Adds object type (fun feature => held feature ++ held' feature)
      (ids ++ ids') (fun feature => paths feature ++ paths' feature) u where
  spares := h.spares.trans h'.spares
  held feature := by rw [h'.held, h.held, List.append_assoc]
  elements := by rw [h'.elements, h.elements, List.append_assoc]
  waiting feature reference hf := by
    rw [h'.waiting feature reference hf, h.waiting feature reference hf,
      List.append_assoc]

theorem Adds.congr (h : s.Adds object type held ids paths t)
    (hh : ∀ feature, held feature = held' feature) (hi : ids = ids')
    (hp : ∀ feature, paths feature = paths' feature) :
    s.Adds object type held' ids' paths' t where
  spares := h.spares
  held feature := (h.held feature).trans (by rw [hh])
  elements := h.elements.trans (by rw [hi])
  waiting feature reference hf :=
    (h.waiting feature reference hf).trans (by rw [hp])

theorem Fills.adds (h : s.Fills t)
    (ht : s.graph.type? object = some (.object type)) :
    s.Adds object type (fun _ => []) [] (fun _ => []) t where
  spares := h.spares _
  held feature := by
    rw [h.graph.childrenOf ht List.not_mem_nil, List.append_nil]
  elements := h.elements.trans (List.append_nil _).symm
  waiting feature _ _ := by rw [h.waiting, List.append_nil]

/-- Other elements are created. -/
theorem Spares.adds (h : s.Spares [] t)
    (ht : s.graph.type? object = some (.object type))
    (he : t.graph.elements = s.graph.elements ++ ids) :
    s.Adds object type (fun _ => []) ids (fun _ => []) t where
  spares := h.mono (List.nil_subset _)
  held feature := by
    rw [h.graph.childrenOf ht List.not_mem_nil, List.append_nil]
  elements := he
  waiting feature _ _ := by
    rw [h.waiting (Graph.lt_size_of_type? ht) List.not_mem_nil,
      List.append_nil]

end Session

namespace SessionWork

variable {ctx : BuildContext} {s t : Session} {object : ObjectId}
  {type : ObjectType}

/-- A link of a reference waits. -/
theorem adds_link (ht : s.graph.type? object = some (.object type))
    {feature : Spanned String} {path : Spanned (List String)}
    (h : (recover ctx.unit (link ctx object type feature path)).exec s =
      (.ok (), t)) :
    s.Adds object type (fun _ => []) []
      (fun name => if feature.value = name then [path.value] else []) t := by
  cases hr : type.reference? feature.value with
  | none =>
    have hfills := fills_recover ctx.unit (fills_link ctx object hr path s)
      _ _ h
    have hadds := hfills.adds ht
    refine ⟨hadds.spares, hadds.held, hadds.elements, ?_⟩
    intro name reference hn
    rw [hfills.waiting, if_neg, List.append_nil]
    rintro rfl
    rw [hr] at hn
    cases hn
  | some reference =>
    have hname : reference.name = feature.value := featureNamed?_eq_some hr
    unfold link at h
    rw [hr] at h
    cases h
    refine ⟨⟨.refl _ _, _, rfl, ?_⟩, fun _ => (List.append_nil _).symm,
      (List.append_nil _).symm, ?_⟩
    · intro r hm
      rw [List.mem_singleton.1 hm]
      exact .inl (List.mem_singleton.2 rfl)
    · intro name _ _
      refine (LinkRequest.paths_append _ _ _ _).trans (congrArg _ ?_)
      by_cases hn : feature.value = name
      · simp [LinkRequest.paths, hname, hn]
      · simp [LinkRequest.paths, hname, hn]

/-- An element that the graph refuses to attach is told. -/
theorem adds_addChild {span : Span} {composition : Feature} {child : ObjectId}
    (h : (recover ctx.unit (change .attachment span
      (·.addChild composition object child))).exec s = (.ok (), t))
    (hc : t.Clean) :
    s.Adds object type
      (fun name => if name = composition.name then [child] else []) []
      (fun _ => []) t := by
  have hx := exec_of_recover h hc fun f u hf => by
    cases hg : s.graph.addChild composition object child with
    | error e =>
      rw [exec_change_of_error hg] at hf
      cases hf
      cases e <;> rfl
    | ok g =>
      rw [exec_change_of_ok hg] at hf
      cases hf
  cases hg : s.graph.addChild composition object child with
  | error e =>
    rw [exec_change_of_error hg] at hx
    cases hx
  | ok g =>
    rw [exec_change_of_ok hg] at hx
    cases hx
    constructor
    · refine ⟨Graph.spares_addChild hg, [], (List.append_nil _).symm, ?_⟩
      exact fun _ hr => by cases hr
    · intro name
      rw [Graph.childrenOf_addChild hg]
      simp only [true_and]
    · exact (Graph.elements_addChild hg).trans (List.append_nil _).symm
    · exact fun _ _ _ => (List.append_nil _).symm

theorem adds_attach (ht : s.graph.type? object = some (.object type))
    {span : Span} {composition : Feature}
    (hf : type.composition? composition.name = some composition)
    {children : List ObjectId}
    (h : (attach ctx span composition object children).exec s = (.ok (), t))
    (hc : t.Clean) :
    s.Adds object type
      (fun name => if name = composition.name then children else []) []
      (fun _ => []) t := by
  induction children generalizing s with
  | nil =>
    cases h
    exact ((Session.Fills.refl t).adds ht).congr (fun _ => (ite_self _).symm)
      rfl fun _ => rfl
  | cons child rest ih =>
    obtain ⟨_, u, hu, h⟩ := Work.exec_bind_eq_ok h
    have hm := (makes_recover (makes_change (m := ctx.metamodel) .attachment
      span fun _ hg => .hold ht hf hg)).moves _ u hu
    have ht' := hm.type? ht
    have hm' := (makes_attach ctx span hf rest ht').moves _ t h
    have ha := (adds_addChild hu (hm'.clean hc)).trans (ih ht' h)
    apply ha.congr
    · intro name
      split <;> rfl
    · rfl
    · exact fun _ => rfl

end SessionWork

/-! ### Elements -/

theorem ObjectType.name_of_compositionNamed {type : ObjectType}
    {name : String} {composition : Feature}
    (h : type.compositionNamed name = .ok composition) :
    composition.name = name := by
  unfold compositionNamed at h
  split at h
  · next found hf =>
    cases h
    exact featureNamed?_eq_some hf
  · cases h

theorem lookup?_of_elementType {ctx : BuildContext}
    (hm : ctx.metamodel = c.metamodel) {languages : NameSet} {name : String}
    {type : ObjectType}
    (h : ctx.metamodel.elementType languages name = .ok type) :
    c.lookup? name = some (.object type) := by
  unfold Metamodel.elementType at h
  split at h
  · cases h
  · next found hv =>
    split at h
    · cases h
    · cases h
      rw [hm] at hv
      exact (Option.filter_eq_some_iff.1 hv).1
  · cases h

open SessionWork

mutual

theorem shows_walk {ctx : BuildContext} (hm : ctx.metamodel = c.metamodel)
    {languages : NameSet} {atTop : Bool} (d : Declaration) {s t : Session}
    {object : ObjectId} (h : (d.walk ctx languages atTop).exec s = (.ok object, t))
    (hs : s.Closed) (hc : t.Clean) :
    s.Spares [] t ∧ ∃ ids, t.view.Element c d object ids ∧
      t.graph.elements = s.graph.elements ++ ids := by
  obtain ⟨modifiers, typeWord, name, members, span⟩ := d
  rw [Declaration.walk] at h
  obtain ⟨⟨created, type⟩, u, h₁, h⟩ := Work.exec_bind_eq_ok h
  obtain ⟨_, v, h₂, h⟩ := Work.exec_bind_eq_ok h
  cases h
  obtain ⟨he, hcreates⟩ := creates_declare h₁
  have hmoves := (makes_declare ctx languages atTop modifiers typeWord name
    s).moves _ u h₁
  obtain ⟨held, ids, hmembers, hadds⟩ := shows_memberWalk hm members h₂
    (hmoves.closed hs) hcreates.type hc
  constructor
  · apply hcreates.spares.forget hadds.spares
    intro id hid
    rw [List.mem_singleton.1 hid]
    exact hcreates.le_index
  refine ⟨object :: ids, ?_, ?_⟩
  · apply View.Element.intro
    · exact hadds.spares.graph.type? hcreates.type
    · exact lookup?_of_elementType hm he
    · exact (hadds.spares.graph.name? hcreates.type).trans hcreates.name
    · exact hmembers
    · intro feature
      exact (hadds.held feature).trans (by rw [hcreates.held, List.nil_append])
    · intro feature reference hf
      refine (hadds.waiting feature reference hf).trans ?_
      rw [hcreates.waiting hs, List.nil_append]
  · rw [hadds.elements, hcreates.elements, List.append_assoc]
    rfl

theorem shows_memberWalk {ctx : BuildContext}
    (hm : ctx.metamodel = c.metamodel) {languages : NameSet} {object : ObjectId}
    {type : ObjectType} (members : List Member) {s t : Session}
    (h : (memberWalk ctx languages object type members).exec s = (.ok (), t))
    (hs : s.Closed) (ht : s.graph.type? object = some (.object type))
    (hc : t.Clean) :
    ∃ held ids, t.view.Members c members held ids ∧
      s.Adds object type held ids (linkPaths · members) t := by
  cases members with
  | nil =>
    rw [memberWalk] at h
    cases h
    exact ⟨_, _, .nil, (Session.Fills.refl _).adds ht⟩
  | cons member rest =>
    cases member with
    | slot name value =>
      rw [memberWalk] at h
      obtain ⟨_, u, h₁, h⟩ := Work.exec_bind_eq_ok h
      have hmoves := (makes_recover (makes_assign ctx _ name value ht)).moves
        _ u h₁
      have hfills := fills_recover ctx.unit
        (fills_assign ctx.metamodel ctx.unit object _ name value s) _ _ h₁
      obtain ⟨held, ids, hmembers, hadds⟩ := shows_memberWalk hm rest h
        (hmoves.closed hs) (hmoves.type? ht) hc
      exact ⟨held, ids, .slot hmembers, (hfills.adds ht).trans hadds⟩
    | link feature path =>
      rw [memberWalk] at h
      obtain ⟨_, u, h₁, h⟩ := Work.exec_bind_eq_ok h
      have hmoves := (makes_recover (makes_link ctx type feature path ht)).moves
        _ u h₁
      obtain ⟨held, ids, hmembers, hadds⟩ := shows_memberWalk hm rest h
        (hmoves.closed hs) (hmoves.type? ht) hc
      refine ⟨held, ids, .link hmembers, ((adds_link ht h₁).trans hadds).congr
        (fun _ => rfl) rfl fun name => ?_⟩
      rw [linkPaths]
      split <;> rfl
    | block feature declarations span =>
      rw [memberWalk] at h
      obtain ⟨composition, s', h₁, hb⟩ := Work.exec_bind_eq_ok h
      obtain ⟨children, u, h₂, hb⟩ := Work.exec_bind_eq_ok hb
      obtain ⟨_, v, h₃, h₄⟩ := Work.exec_bind_eq_ok hb
      obtain ⟨hx, rfl⟩ := Work.exec_ofExcept_eq_ok h₁
      have hf := ObjectType.composition?_of_compositionNamed hx
      have hname : composition.name = feature.value :=
        ObjectType.name_of_compositionNamed hx
      have hu := (makes_declarationWalk ctx languages declarations s').moves
        _ u h₂
      have htu := hu.type? ht
      have hv := (makes_attach ctx feature.span hf children htu).moves _ v h₃
      have htv := hv.type? htu
      have hcv := ((makes_memberWalk ctx languages rest v htv).moves _ t
        h₄).clean hc
      obtain ⟨hspares, ids, hshown, helements⟩ :=
        shows_declarationWalk hm declarations h₂ hs (hv.clean hcv)
      have hattach := adds_attach htu hf h₃ hcv
      obtain ⟨held, others, hmembers, hadds⟩ := shows_memberWalk hm rest h₄
        (hv.closed (hu.closed hs)) htv hc
      have hrest := hattach.spares.trans hadds.spares
      refine ⟨_, _, .block (hshown.transport fun id hid => ?_) hmembers,
        (((hspares.adds ht helements).trans hattach).trans hadds).congr
          (fun name => ?_) ?_ fun _ => rfl⟩
      · -- The elements of the block came after the one that holds them.
        have hle := hspares.graph.le_of_elements helements hid
        have hlt := Graph.lt_size_of_type? ht
        apply hrest.agrees
        · rw [helements]
          exact List.mem_append_right _ hid
        · rw [List.mem_singleton]
          rintro rfl
          omega
      · rw [hname]
        split <;> rfl
      · rw [List.append_nil]

theorem shows_declarationWalk {ctx : BuildContext}
    (hm : ctx.metamodel = c.metamodel) {languages : NameSet}
    (declarations : List Declaration) {s t : Session}
    {children : List ObjectId}
    (h : (declarationWalk ctx languages declarations).exec s =
      (.ok children, t)) (hs : s.Closed) (hc : t.Clean) :
    s.Spares [] t ∧ ∃ ids, t.view.Elements c declarations children ids ∧
      t.graph.elements = s.graph.elements ++ ids := by
  cases declarations with
  | nil =>
    rw [declarationWalk] at h
    cases h
    exact ⟨.refl _ _, [], .nil, (List.append_nil _).symm⟩
  | cons d rest =>
    rw [declarationWalk] at h
    obtain ⟨object, u, h₁, h⟩ := Work.exec_bind_eq_ok h
    obtain ⟨others, v, h₂, h⟩ := Work.exec_bind_eq_ok h
    cases h
    have hu := (makes_walk ctx languages false d s).moves _ u h₁
    have hv := (makes_declarationWalk ctx languages rest u).moves _ t h₂
    obtain ⟨hspares, ids, hshown, helements⟩ :=
      shows_walk hm d h₁ hs (hv.clean hc)
    obtain ⟨hspares', ids', hshown', helements'⟩ :=
      shows_declarationWalk hm rest h₂ (hu.closed hs) hc
    refine ⟨hspares.trans hspares', ids ++ ids', .cons
      (hshown.transport fun id hid => ?_) hshown', ?_⟩
    · apply hspares'.agrees _ List.not_mem_nil
      rw [helements]
      exact List.mem_append_right _ hid
    · rw [helements', helements, List.append_assoc]

end

theorem Session.Moves.placed {m : Metamodel} {source : String} {s t : Session}
    (h : s.Moves m source t) (hs : s.graph.Placed) : t.graph.Placed := by
  induction h with
  | refl => exact hs
  | tail _ hm ih =>
    cases hm with
    | report | defer => exact ih
    | graph hm =>
      cases hm with
      | create type isRoot _ => exact ih.instantiate type isRoot
      | name hm =>
        rw [Graph.setName_eq_ok hm]
        apply ih.update
        · exact fun _ => rfl
        · exact fun _ => rfl
      | assign _ _ _ hm =>
        rw [Graph.setValue_eq_ok hm]
        apply ih.update
        · exact fun _ => rfl
        · exact fun _ => rfl
      | hold _ _ hm => exact ih.addChild hm

/-! ### Units -/

namespace Walk

theorem fills_declareLanguage (w : Walk) (ctx : BuildContext)
    (name : Spanned String) :
    w.toSession.Fills (w.declareLanguage ctx name).toSession := by
  unfold declareLanguage
  split
  · exact .refl _
  · split
    · exact ⟨.refl _ _, rfl, rfl⟩
    · exact .refl _

theorem collect_of_clean {w : Walk} (h : w.toSession.Clean)
    (ctx : BuildContext) (object : ObjectId) :
    w.collect ctx object = { w with roots := w.roots ++ [object] } :=
  if_pos (h.acceptsRoots _ _)

/-- The items between two walks are shown by the roots that were collected. -/
structure Shows (c : Catalog) (w : Walk) (items : List Item)
    (children ids : List ObjectId) (v : Walk) : Prop where
  spares : w.toSession.Spares [] v.toSession
  shown : v.view.Elements c (SourceTree.mk items).declarations children ids
  roots : v.roots = w.roots ++ children
  elements : v.graph.elements = w.graph.elements ++ ids

theorem shows_items {ctx : BuildContext} (hm : ctx.metamodel = c.metamodel)
    (items : List Item) (w : Walk) (hs : w.toSession.Closed)
    (hc : (w.items ctx items).toSession.Clean) :
    ∃ children ids, w.Shows c items children ids (w.items ctx items) := by
  induction items generalizing w with
  | nil =>
    exact ⟨[], [], .refl _ _, .nil, (List.append_nil _).symm,
      (List.append_nil _).symm⟩
  | cons item rest ih =>
    cases item with
    | language name =>
      have hfills := w.fills_declareLanguage ctx name
      obtain ⟨children, ids, h⟩ := ih _
        ((w.moves_declareLanguage ctx name).closed hs) hc
      refine ⟨children, ids, (hfills.spares []).trans h.spares, h.shown, ?_, ?_⟩
      · rw [← w.declareLanguage_roots ctx name]
        exact h.roots
      · rw [← hfills.elements]
        exact h.elements
    | importUnit name =>
      obtain ⟨children, ids, h⟩ :=
        ih { w with imports := w.imports.insert name.value } hs hc
      exact ⟨children, ids, h.spares, h.shown, h.roots, h.elements⟩
    | declaration d =>
      have hd := (makes_walk ctx w.languages true d w.toSession).moves
      rw [Walk.items] at hc ⊢
      rcases hw : (d.walk ctx w.languages true).exec w.toSession
        with ⟨f | object, s⟩
      · rw [hw] at hc
        have hf := (Work.OnlyFatal.recovering ctx.unit).walk w.languages
          true d w.toSession f s hw
        have hn := Severity.isError_of_isFatal hf
        rw [Session.Clean.of_reportFault hc |>.2] at hn
        cases hn
      · have hrest := moves_items ctx rest
          (({ w with toSession := s } : Walk).collect ctx object)
        rw [hw] at hc
        rw [toSession_collect] at hrest
        have hcs := hrest.clean hc
        obtain ⟨hspares, ids, hshown, helements⟩ := shows_walk hm d hw hs hcs
        have hcollect : ({ w with toSession := s } : Walk).collect ctx object =
            ⟨s, w.languages, w.imports, w.roots ++ [object]⟩ :=
          collect_of_clean hcs ctx object
        dsimp only at hc ⊢
        rw [hcollect] at hc ⊢
        obtain ⟨children, others, h⟩ := ih _ ((hd _ _ hw).closed hs) hc
        refine ⟨object :: children, ids ++ others, hspares.trans h.spares,
          .cons (hshown.transport fun id hid => ?_) h.shown, ?_, ?_⟩
        · apply h.spares.agrees _ List.not_mem_nil
          change id ∈ s.graph.elements
          rw [helements]
          exact List.mem_append_right _ hid
        · rw [h.roots, List.append_assoc]
          rfl
        · refine h.elements.trans ?_
          change s.graph.elements ++ others = _
          rw [helements, List.append_assoc]

end Walk

/-- What is told about a text without a tree is fatal. -/
theorem SourceTree.fatal_of_ofSource {text : String}
    {diagnostics : List Diagnostic} (h : ofSource text = .error diagnostics) :
    ∃ d rest, diagnostics = d :: rest ∧ d.severity = .fatal := by
  unfold ofSource at h
  cases hs : Token.scan text with
  | error errors =>
    rw [hs] at h
    cases h
    unfold Token.scan at hs
    dsimp only at hs
    split at hs
    · cases hs
    · next hn =>
      cases hs
      cases he : Token.errorsOf (Token.lexemes text) with
      | nil =>
        rw [he] at hn
        exact absurd rfl hn
      | cons e rest => exact ⟨_, _, rfl, rfl⟩
  | ok tokens =>
    rw [hs] at h
    dsimp only at h
    split at h
    · cases h
      exact ⟨_, _, rfl, rfl⟩
    · cases h

theorem Session.shows_walkUnit {ctx : BuildContext}
    (hm : ctx.metamodel = c.metamodel) {s : Session} (hs : s.Closed)
    (hc : (s.walkUnit ctx).2.Clean) :
    s.Spares [] (s.walkUnit ctx).2 ∧
      ∃ ids, (s.walkUnit ctx).2.view.ShowsText c ctx.unit.text
          (s.walkUnit ctx).1.roots ids ∧
        (s.walkUnit ctx).2.graph.elements = s.graph.elements ++ ids := by
  unfold walkUnit at hc ⊢
  cases ht : SourceTree.ofSource ctx.unit.text with
  | error diagnostics =>
    rw [ht] at hc
    obtain ⟨d, rest, rfl, hd⟩ := SourceTree.fatal_of_ofSource ht
    have hfirst := (moves_foldl_reportIn (m := c.metamodel) ctx.unit rest
      (s.reportIn ctx.unit d)).clean hc
    have hn := hfirst.of_report.2
    unfold Problem.severity at hn
    rw [Problem.diagnostic_locate, hd] at hn
    cases hn
  | ok tree =>
    rw [ht] at hc
    obtain ⟨children, ids, h⟩ :=
      Walk.shows_items hm tree.items ⟨s, .empty, .empty, []⟩ hs hc
    have hshown := h.shown
    have hroots : _ = children := h.roots.trans (List.nil_append _)
    rw [← hroots] at hshown
    exact ⟨h.spares, ids, ⟨tree, ht, hshown⟩, h.elements⟩

end ModelText
