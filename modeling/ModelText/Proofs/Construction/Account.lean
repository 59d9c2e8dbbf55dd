import ModelText.Construction.Session
import ModelText.Proofs.Graph.Elements
import ModelText.Text.Capital

/-!
# What a graph shows of declarations

A declaration is shown by an element of the type that its header names and of
its name. What the element holds are the elements that show the declarations in
its blocks, each feature for itself and its blocks one behind another; and its
links are those of its members. The relations of this module say so along the
tree of a unit. They list the elements of all declarations in the order in which
these are written, so that it can be told that each has an element of its own.

Links are made only when all units are built. So a `View` has, besides a graph,
what is known of the links of its elements: first that they wait, and later
where they lead.
-/

namespace ModelText

/-- The paths of the links of a feature, in the order written. -/
def linkPaths (feature : String) : List Member → List (List String)
  | [] => []
  | .slot _ _ :: rest => linkPaths feature rest
  | .link name path :: rest =>
    if name.value = feature then path.value :: linkPaths feature rest
    else linkPaths feature rest
  | .block _ _ _ :: rest => linkPaths feature rest

/-- The declarations at the top level of a unit. -/
def SourceTree.declarations (tree : SourceTree) : List Declaration :=
  tree.items.filterMap fun
    | .declaration d => some d
    | _ => none

/-- The objects, and what is known of the links of elements, by feature. -/
structure View where
  /-- The objects. -/
  graph : Graph
  /-- Whether the links of a feature of an element have these paths. -/
  linked : ObjectId → String → List (List String) → Prop

namespace View

mutual

/-- The element `id` shows the declaration, and `ids` show the declaration and
all those inside. -/
inductive Element (c : Catalog) (v : View) :
    Declaration → ObjectId → List ObjectId → Prop
  | intro {modifiers : List (Spanned String)} {typeWord : Spanned String}
      {name : Option (Spanned String)} {members : List Member} {span : Span}
      {id : ObjectId} {type : ObjectType} {held : String → List ObjectId}
      {ids : List ObjectId}
      (ht : v.graph.type? id = some (.object type))
      (hl : c.lookup? (Text.capitalized typeWord.value) = some (.object type))
      (hn : v.graph.name? id = name.map (·.value))
      (hm : Members c v members held ids)
      (hc : ∀ feature, v.graph.childrenOf id feature = held feature)
      (hr : ∀ feature reference, type.reference? feature = some reference →
        v.linked id feature (linkPaths feature members)) :
      Element c v ⟨modifiers, typeWord, name, members, span⟩ id (id :: ids)

/-- The elements `held` by each feature show the declarations in its blocks, and
`ids` show these and all those inside. -/
inductive Members (c : Catalog) (v : View) :
    List Member → (String → List ObjectId) → List ObjectId → Prop
  | nil : Members c v [] (fun _ => []) []
  | slot {name : Spanned String} {value : Spanned Literal}
      {rest : List Member} {held : String → List ObjectId}
      {ids : List ObjectId} (h : Members c v rest held ids) :
      Members c v (.slot name value :: rest) held ids
  | link {feature : Spanned String} {path : Spanned (List String)}
      {rest : List Member} {held : String → List ObjectId}
      {ids : List ObjectId} (h : Members c v rest held ids) :
      Members c v (.link feature path :: rest) held ids
  | block {feature : Spanned String} {declarations : List Declaration}
      {span : Span} {rest : List Member} {children : List ObjectId}
      {held : String → List ObjectId} {ids others : List ObjectId}
      (hb : Elements c v declarations children ids)
      (h : Members c v rest held others) :
      Members c v (.block feature declarations span :: rest)
        (fun name =>
          if name = feature.value then children ++ held name else held name)
        (ids ++ others)

/-- The elements `children` show the declarations, one each, and `ids` show
these and all those inside. -/
inductive Elements (c : Catalog) (v : View) :
    List Declaration → List ObjectId → List ObjectId → Prop
  | nil : Elements c v [] [] []
  | cons {d : Declaration} {rest : List Declaration} {id : ObjectId}
      {children ids others : List ObjectId} (hd : Element c v d id ids)
      (h : Elements c v rest children others) :
      Elements c v (d :: rest) (id :: children) (ids ++ others)

end

/-- The elements `roots` show the declarations at the top level of a text, and
`ids` show all its declarations. -/
def ShowsText (c : Catalog) (v : View) (text : String)
    (roots ids : List ObjectId) : Prop :=
  ∃ tree, SourceTree.ofSource text = .ok tree ∧
    v.Elements c tree.declarations roots ids

/-- What the view shows of an element, the other view shows as well. -/
structure Agrees (v v' : View) (id : ObjectId) : Prop where
  type : ∀ type, v.graph.type? id = some type →
    v'.graph.type? id = some type
  name : v'.graph.name? id = v.graph.name? id
  held : ∀ feature,
    v'.graph.childrenOf id feature = v.graph.childrenOf id feature
  linked : ∀ feature paths, v.linked id feature paths →
    v'.linked id feature paths

section

variable {c : Catalog} {v v' : View}

mutual

theorem Element.transport {d : Declaration} {id : ObjectId}
    {ids : List ObjectId} (h : v.Element c d id ids)
    (ha : ∀ other ∈ ids, v.Agrees v' other) : v'.Element c d id ids := by
  cases h with
  | intro ht hl hn hm hc hr =>
    have hid := ha id List.mem_cons_self
    apply Element.intro (hid.type _ ht) hl (hid.name.trans hn)
    · exact hm.transport fun other ho => ha other (List.mem_cons_of_mem _ ho)
    · exact fun feature => (hid.held feature).trans (hc feature)
    · exact fun feature reference hf =>
        hid.linked _ _ (hr feature reference hf)

theorem Members.transport {members : List Member}
    {held : String → List ObjectId} {ids : List ObjectId}
    (h : v.Members c members held ids)
    (ha : ∀ other ∈ ids, v.Agrees v' other) :
    v'.Members c members held ids := by
  cases h with
  | nil => exact .nil
  | slot h => exact .slot (h.transport ha)
  | link h => exact .link (h.transport ha)
  | block hb h =>
    apply Members.block
    · exact hb.transport fun other ho => ha other (List.mem_append_left _ ho)
    · exact h.transport fun other ho => ha other (List.mem_append_right _ ho)

theorem Elements.transport {declarations : List Declaration}
    {children ids : List ObjectId} (h : v.Elements c declarations children ids)
    (ha : ∀ other ∈ ids, v.Agrees v' other) :
    v'.Elements c declarations children ids := by
  cases h with
  | nil => exact .nil
  | cons hd h =>
    apply Elements.cons
    · exact hd.transport fun other ho => ha other (List.mem_append_left _ ho)
    · exact h.transport fun other ho => ha other (List.mem_append_right _ ho)

end

theorem ShowsText.transport {text : String} {roots ids : List ObjectId}
    (h : v.ShowsText c text roots ids) (ha : ∀ other ∈ ids, v.Agrees v' other) :
    v'.ShowsText c text roots ids := by
  obtain ⟨tree, ht, hs⟩ := h
  exact ⟨tree, ht, hs.transport ha⟩

end

end View

/-! ### Sessions -/

/-- The paths of the links of an element, by feature. -/
def LinkRequest.paths (requests : List LinkRequest) (id : ObjectId)
    (feature : String) : List (List String) :=
  (requests.filter fun r =>
    r.scope = id ∧ r.reference.name = feature).map (·.path)

theorem LinkRequest.paths_append (requests others : List LinkRequest)
    (id : ObjectId) (feature : String) :
    paths (requests ++ others) id feature =
      paths requests id feature ++ paths others id feature := by
  simp [paths]

theorem LinkRequest.paths_eq_nil {requests : List LinkRequest} {id : ObjectId}
    (h : ∀ r ∈ requests, r.scope ≠ id) (feature : String) :
    paths requests id feature = [] := by
  unfold paths
  rw [List.map_eq_nil_iff, List.filter_eq_nil_iff]
  intro r hr hx
  exact h r hr (of_decide_eq_true hx).1

namespace Session

/-- The paths of the links of an element that wait, by feature. -/
def waiting (s : Session) : ObjectId → String → List (List String) :=
  LinkRequest.paths s.requests

/-- The graph of the session and the links that wait. -/
def view (s : Session) : View where
  graph := s.graph
  linked id feature paths := s.waiting id feature = paths

/-- Between the sessions only objects in the list came to hold more, and links
were put aside only for these and for objects that were created. -/
structure Spares (but : List ObjectId) (s t : Session) : Prop where
  graph : s.graph.Spares but t.graph
  requests : ∃ more, t.requests = s.requests ++ more ∧
    ∀ r ∈ more, r.scope ∈ but ∨ s.graph.size ≤ r.scope.index

variable {but : List ObjectId} {s t u : Session}

theorem Spares.refl (but : List ObjectId) (s : Session) : s.Spares but s :=
  ⟨.refl _ _, [], (List.append_nil _).symm, fun _ h => by cases h⟩

theorem Spares.trans (h : s.Spares but t) (h' : t.Spares but u) :
    s.Spares but u := by
  obtain ⟨more, hm, hs⟩ := h.requests
  obtain ⟨more', hm', hs'⟩ := h'.requests
  refine ⟨h.graph.trans h'.graph, more ++ more', ?_, fun r hr => ?_⟩
  · rw [hm', hm, List.append_assoc]
  · rcases List.mem_append.1 hr with hr | hr
    · exact hs r hr
    · exact (hs' r hr).imp_right (Nat.le_trans h.graph.size_le)

theorem Spares.mono {but' : List ObjectId} (h : s.Spares but t)
    (hb : but ⊆ but') : s.Spares but' t := by
  obtain ⟨more, hm, hs⟩ := h.requests
  exact ⟨h.graph.mono hb, more, hm, fun r hr => (hs r hr).imp_left (hb ·)⟩

/-- Objects that came later do not count. -/
theorem Spares.forget (h : s.Spares [] t) (h' : t.Spares but u)
    (hb : ∀ id ∈ but, s.graph.size ≤ id.index) : s.Spares [] u := by
  obtain ⟨more, hm, hs⟩ := h.requests
  obtain ⟨more', hm', hs'⟩ := h'.requests
  refine ⟨h.graph.forget h'.graph hb, more ++ more', ?_, fun r hr => ?_⟩
  · rw [hm', hm, List.append_assoc]
  · rcases List.mem_append.1 hr with hr | hr
    · exact hs r hr
    · right
      rcases hs' r hr with hr | hr
      · exact hb _ hr
      · exact Nat.le_trans h.graph.size_le hr

/-- No links are put aside for an object that was there. -/
theorem Spares.waiting (h : s.Spares but t) {id : ObjectId}
    (hi : id.index < s.graph.size) (hid : id ∉ but) (feature : String) :
    t.waiting id feature = s.waiting id feature := by
  obtain ⟨more, hm, hs⟩ := h.requests
  have hn : LinkRequest.paths more id feature = [] := by
    apply LinkRequest.paths_eq_nil
    intro r hr he
    rcases hs r hr with hb | hb
    · exact hid (he ▸ hb)
    · rw [he] at hb
      omega
  unfold Session.waiting
  rw [hm, LinkRequest.paths_append, hn, List.append_nil]

/-- What shows of an element stays while others are built. -/
theorem Spares.agrees (h : s.Spares but t) {id : ObjectId}
    (hm : id ∈ s.graph.elements) (hid : id ∉ but) :
    s.view.Agrees t.view id := by
  obtain ⟨type, ht⟩ := Graph.mem_elements.1 hm
  constructor
  · exact fun _ hx => h.graph.type? hx
  · exact h.graph.name? ht
  · exact h.graph.childrenOf ht hid
  · intro feature paths hp
    exact (h.waiting (Graph.lt_size_of_type? ht) hid feature).trans hp

end Session

end ModelText
