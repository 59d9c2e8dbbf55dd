import ModelText.Construction.Link
import ModelText.Proofs.Graph.Outline

/-!
# Links of different units

Making a link looks for its target, and if the graph allows it, adds the target
to those of the element that refers. Neither the search nor the rules depend on
links of other elements, so links of different units can be made in either
order: the graph is the same in the end, and so are the problems of each unit.

In isomorphic graphs without two roots of one name the same links are made.
-/

namespace ModelText

section

variable {α β κ : Type} [DecidableEq κ] {key : α → κ} {f : β → α → β}

/-- A step can be taken before others that it commutes with. -/
theorem foldl_of_commute {x : α} {list : List α}
    (hc : ∀ y ∈ list, ∀ b, f (f b x) y = f (f b y) x) (b : β) :
    list.foldl f (f b x) = f (list.foldl f b) x := by
  induction list generalizing b with
  | nil => rfl
  | cons y rest ih =>
    rw [List.foldl_cons, List.foldl_cons, hc y List.mem_cons_self]
    exact ih (fun z hz => hc z (List.mem_cons_of_mem y hz)) _

/-- Steps that commute if their keys differ can be taken in any order that keeps
the order of the steps of each key. -/
theorem foldl_eq_of_filter_eq {list list' : List α}
    (hc : ∀ x ∈ list, ∀ y ∈ list, key x ≠ key y →
      ∀ b, f (f b x) y = f (f b y) x)
    (h : ∀ k, list.filter (key · = k) = list'.filter (key · = k)) (b : β) :
    list.foldl f b = list'.foldl f b := by
  induction list generalizing list' b with
  | nil =>
    cases list' with
    | nil => rfl
    | cons y rest =>
      have hy := h (key y)
      rw [List.filter_nil, List.filter_cons_of_pos (by simp)] at hy
      cases hy
  | cons x rest ih =>
    have hx := h (key x)
    rw [List.filter_cons_of_pos (by simp)] at hx
    obtain ⟨before, after, rfl, hb, -, -⟩ := List.filter_eq_cons_iff.1 hx.symm
    -- No step before `x` has its key, so `x` can be taken first.
    have hm : ∀ y ∈ before, ∀ b, f (f b x) y = f (f b y) x := by
      intro y hy
      have hk : key x ≠ key y := fun hk => hb y hy (by simpa using hk.symm)
      have hmem : y ∈ (x :: rest).filter (key · = key y) := by
        rw [h]
        exact List.mem_filter.2 ⟨List.mem_append_left _ hy, by simp⟩
      exact hc x List.mem_cons_self y (List.mem_filter.1 hmem).1 hk
    rw [List.foldl_append, List.foldl_cons, List.foldl_cons,
      ← foldl_of_commute hm, ← List.foldl_append]
    refine ih (fun y hy z hz => hc y (List.mem_cons_of_mem x hy) z
      (List.mem_cons_of_mem x hz)) (fun k => ?_) _
    have hk := h k
    rw [List.filter_append] at hk ⊢
    by_cases hkx : key x = k
    · have hn : before.filter (key · = k) = [] := by
        rw [List.filter_eq_nil_iff]
        intro y hy
        rw [← hkx]
        exact hb y hy
      rw [List.filter_cons_of_pos (by simpa using hkx),
        List.filter_cons_of_pos (by simpa using hkx), hn] at hk
      rw [hn]
      exact (List.cons.inj hk).2
    · rwa [List.filter_cons_of_neg (by simpa using hkx),
        List.filter_cons_of_neg (by simpa using hkx)] at hk

end

namespace Graph

/-- Whether the graph allows a link. -/
def mayLink (g : Graph) (reference : Feature) (source target : ObjectId) :
    Except Error Unit :=
  match g.type? target with
  | none => .error (.unknownObject target)
  | some found =>
    if found.conformsTo reference.target = false then
      .error (.typeMismatch reference.name reference.target found.name)
    else match (g.object? source).map (·.targets reference.name) with
      | none => .error (.unknownObject source)
      | some targets =>
        if reference.many = false ∧ targets ≠ [] then
          .error (.alreadySet reference.name)
        else .ok ()

theorem link_eq_mayLink (g : Graph) (reference : Feature)
    (source target : ObjectId) :
    g.link reference source target =
      (g.mayLink reference source target).map fun _ =>
        g.update source (·.refer reference.name target) := by
  rw [link_eq]
  unfold mayLink type?
  cases g.object? target with
  | none => rfl
  | some found =>
    dsimp only [Option.map_some]
    split
    · rfl
    · cases g.object? source with
      | none => rfl
      | some object =>
        dsimp only [Option.map_some]
        split <;> rfl

/-- Links of other elements do not matter. -/
theorem mayLink_update (g : Graph) (reference : Feature)
    {source other : ObjectId} (ho : source ≠ other) (target : ObjectId)
    (name : String) (id : ObjectId) :
    (g.update other (·.refer name id)).mayLink reference source target =
      g.mayLink reference source target := by
  have ht : (g.update other (·.refer name id)).type? target =
      g.type? target := by
    refine type?_update ?_
    exact fun _ => rfl
  unfold mayLink
  rw [ht, object?_update, if_neg ho]

theorem Iso.mayLink {ρ : ObjectId → ObjectId} {g h : Graph}
    (hi : Iso ρ g h) (reference : Feature) {source target : ObjectId}
    (hs : source.index < g.size) (ht : target.index < g.size) :
    h.mayLink reference (ρ source) (ρ target) =
      g.mayLink reference source target := by
  obtain ⟨object, ho⟩ := object?_eq_some_of_lt hs
  obtain ⟨found, hf⟩ := object?_eq_some_of_lt ht
  unfold Graph.mayLink
  rw [hi.type?, hi.objects, ho]
  unfold Graph.type?
  rw [hf]
  simp only [Option.map_some, Object.targets_rename, ne_eq,
    List.map_eq_nil_iff]

theorem update_comm (g : Graph) {id other : ObjectId} (h : id ≠ other)
    (f f' : Object → Object) :
    (g.update id f).update other f' = (g.update other f').update id f := by
  have hi : id.index ≠ other.index := by
    obtain ⟨i⟩ := id
    obtain ⟨j⟩ := other
    intro hij
    exact h (congrArg ObjectId.mk hij)
  have ho : (g.objects.modify id.index f).modify other.index f' =
      (g.objects.modify other.index f').modify id.index f := by
    apply Array.ext_getElem?
    intro k
    simp only [Array.getElem?_modify]
    by_cases hk : id.index = k
    · have hk' : other.index ≠ k := fun hk' => hi (hk.trans hk'.symm)
      simp only [hk, hk', if_true, if_false]
    · simp only [hk, if_false]
  unfold update
  rw [ho]

end Graph

namespace LinkRequest

/-- The target of the link, if it can be made. -/
def target (r : LinkRequest) (g : Graph) : Except Fault ObjectId :=
  match g.resolve? r.scope r.path with
  | none => .error (.unresolved r.path)
  | some target =>
    match g.mayLink r.reference r.scope target with
    | .ok _ => .ok target
    | .error e => .error (.refused e .link)

theorem resolve?_of_target {r : LinkRequest} {g : Graph} {found : ObjectId}
    (h : r.target g = .ok found) : g.resolve? r.scope r.path = some found := by
  unfold target at h
  cases hr : g.resolve? r.scope r.path with
  | none =>
    rw [hr] at h
    cases h
  | some other =>
    rw [hr] at h
    dsimp only at h
    split at h
    · cases h
      rfl
    · cases h

/-- If a path leads to an object, the link is one to this object, or the graph
refuses this object. -/
theorem target_of_resolve? {r : LinkRequest} {g : Graph} {found : ObjectId}
    (h : g.resolve? r.scope r.path = some found) :
    r.target g = .ok found ∨
      ∃ e, g.link r.reference r.scope found = .error e ∧
        r.target g = .error (.refused e .link) := by
  unfold target
  rw [h, Graph.link_eq_mayLink]
  dsimp only
  cases g.mayLink r.reference r.scope found with
  | ok => exact .inl rfl
  | error e => exact .inr ⟨e, rfl, rfl⟩

/-- The graph with the link. -/
def made (r : LinkRequest) (g : Graph) (target : ObjectId) : Graph :=
  g.update r.scope (·.refer r.reference.name target)

theorem apply_eq (r : LinkRequest) (g : Graph) :
    r.apply g = (r.target g).map (r.made g) := by
  unfold apply target
  cases g.resolve? r.scope r.path with
  | none => rfl
  | some target =>
    dsimp only
    rw [Graph.link_eq_mayLink]
    cases g.mayLink r.reference r.scope target <;> rfl

theorem alike_made (r : LinkRequest) (g : Graph) (target : ObjectId) :
    Graph.Alike (fun id => id) g (r.made g target) := by
  refine g.alike_update r.scope ?_ ?_ ?_
  · exact fun _ => rfl
  · exact fun _ => rfl
  · exact fun _ => rfl

theorem target_made (r : LinkRequest) {r' : LinkRequest}
    (h : r.scope ≠ r'.scope) (g : Graph) (id : ObjectId) :
    r.target (r'.made g id) = r.target g := by
  have hr : (r'.made g id).resolve? r.scope r.path =
      g.resolve? r.scope r.path := by
    have ha := (r'.alike_made g id).resolve? r.scope r.path
    rwa [Option.map_id_fun'] at ha
  unfold target
  rw [hr]
  cases g.resolve? r.scope r.path with
  | none => rfl
  | some found =>
    dsimp only
    rw [made, Graph.mayLink_update g _ h]

theorem target_rename {ρ : ObjectId → ObjectId} {g h : Graph}
    (hi : g.Iso ρ h) (hr : g.RootsApart) {r : LinkRequest}
    (hs : r.scope.index < g.size) :
    (r.rename ρ).target h = (r.target g).map ρ := by
  have hx : h.resolve? (r.rename ρ).scope (r.rename ρ).path =
      (g.resolve? r.scope r.path).map ρ := (hi.alike hr).resolve? _ _
  unfold target
  rw [hx]
  cases ht : g.resolve? r.scope r.path with
  | none => rfl
  | some found =>
    have hf : found.index < g.size := by
      obtain ⟨name, hn⟩ := Graph.name?_of_resolve? ht
      obtain ⟨o, ho, -⟩ := Option.bind_eq_some_iff.1 hn
      exact Graph.lt_size_of_object? ho
    have hm : h.mayLink (r.rename ρ).reference (r.rename ρ).scope (ρ found) =
        g.mayLink r.reference r.scope found := hi.mayLink _ hs hf
    dsimp only [Option.map_some]
    rw [hm]
    cases g.mayLink r.reference r.scope found <;> rfl

theorem iso_made {ρ : ObjectId → ObjectId} {g h : Graph} (hi : g.Iso ρ h)
    (r : LinkRequest) (target : ObjectId) :
    (r.made g target).Iso ρ ((r.rename ρ).made h (ρ target)) :=
  hi.update r.scope fun o => o.refer_rename ρ r.reference.name target

end LinkRequest

/-! ### Links one after another -/

/-- A graph and the problems of each unit. -/
structure Linked where
  /-- The objects. -/
  graph : Graph
  /-- The problems of each unit. -/
  problems : String → List Problem

namespace Linked

/-- Adds a problem behind the others of its unit. -/
def report (l : Linked) (p : Problem) : Linked where
  graph := l.graph
  problems source :=
    if source = p.source then l.problems source ++ [p] else l.problems source

/-- Makes one more link. -/
def add (l : Linked) (r : LinkRequest) : Linked :=
  match r.target l.graph with
  | .ok target => ⟨r.made l.graph target, l.problems⟩
  | .error fault => l.report (r.problem fault)

theorem add_of_ok {l : Linked} {r : LinkRequest} {target : ObjectId}
    (h : r.target l.graph = .ok target) :
    l.add r = ⟨r.made l.graph target, l.problems⟩ := by
  unfold add
  rw [h]

theorem add_of_error {l : Linked} {r : LinkRequest} {fault : Fault}
    (h : r.target l.graph = .error fault) :
    l.add r = l.report (r.problem fault) := by
  unfold add
  rw [h]

theorem report_comm (l : Linked) {p q : Problem} (h : p.source ≠ q.source) :
    (l.report p).report q = (l.report q).report p := by
  unfold report
  congr 1
  funext source
  by_cases hs : source = p.source
  · have hn : source ≠ q.source := fun hn => h (hs.symm.trans hn)
    simp only [if_pos hs, if_neg hn]
  · simp only [if_neg hs]

/-- Links of other elements do not change what comes of a link. -/
theorem target_add (l : Linked) {r r' : LinkRequest} (h : r.scope ≠ r'.scope) :
    r.target (l.add r').graph = r.target l.graph := by
  cases hx : r'.target l.graph with
  | ok target =>
    rw [add_of_ok hx]
    exact r.target_made h l.graph target
  | error fault =>
    rw [add_of_error hx]
    rfl

/-- Links of different elements of different units commute. -/
theorem add_comm {a b : LinkRequest} (hscope : a.scope ≠ b.scope)
    (hsource : a.source ≠ b.source) (l : Linked) :
    (l.add a).add b = (l.add b).add a := by
  have hab := l.target_add hscope
  have hba := l.target_add hscope.symm
  cases ha : a.target l.graph with
  | ok target =>
    rw [ha] at hab
    cases hb : b.target l.graph with
    | ok target' =>
      rw [hb] at hba
      rw [add_of_ok hba, add_of_ok hab, add_of_ok ha, add_of_ok hb]
      exact congrArg (Linked.mk · l.problems)
        (l.graph.update_comm hscope _ _)
    | error fault =>
      rw [hb] at hba
      rw [add_of_error hba, add_of_ok hab, add_of_ok ha, add_of_error hb]
      rfl
  | error fault =>
    rw [ha] at hab
    cases hb : b.target l.graph with
    | ok target =>
      rw [hb] at hba
      rw [add_of_ok hba, add_of_error hab, add_of_error ha, add_of_ok hb]
      rfl
    | error fault' =>
      rw [hb] at hba
      rw [add_of_error hba, add_of_error hab, add_of_error ha,
        add_of_error hb]
      exact l.report_comm hsource

/-- What a linking shows of its problems. -/
def ofLinking (l : Linking) : Linked := ⟨l.graph, l.sink.problems⟩

theorem ofLinking_add (l : Linking) (r : LinkRequest) :
    ofLinking (l.add r) = (ofLinking l).add r := by
  have ha := r.apply_eq l.graph
  cases ht : r.target l.graph with
  | ok target =>
    have hx : (ofLinking l).add r = _ := add_of_ok ht
    rw [ht] at ha
    rw [hx]
    unfold Linking.add
    rw [ha]
    rfl
  | error fault =>
    have hx : (ofLinking l).add r = _ := add_of_error ht
    rw [ht] at ha
    rw [hx]
    unfold Linking.add
    rw [ha]
    refine congrArg (Linked.mk l.graph) ?_
    funext source
    exact Sink.problems_report _ _ _

theorem ofLinking_foldl (requests : List LinkRequest) (l : Linking) :
    ofLinking (requests.foldl Linking.add l) =
      requests.foldl add (ofLinking l) := by
  induction requests generalizing l with
  | nil => rfl
  | cons r rest ih =>
    rw [List.foldl_cons, List.foldl_cons, ih, ofLinking_add]

/-! ### What links leave alone -/

theorem roots_add (l : Linked) (r : LinkRequest) :
    (l.add r).graph.roots = l.graph.roots := by
  unfold add
  split <;> rfl

theorem size_add (l : Linked) (r : LinkRequest) :
    (l.add r).graph.size = l.graph.size := by
  unfold add
  split
  · exact Graph.size_update _ _ _
  · rfl

theorem name?_add (l : Linked) (r : LinkRequest) (id : ObjectId) :
    (l.add r).graph.name? id = l.graph.name? id := by
  unfold add
  split
  · exact (r.alike_made l.graph _).name? id
  · rfl

theorem rootsApart_add {l : Linked} (r : LinkRequest) :
    (l.add r).graph.RootsApart ↔ l.graph.RootsApart := by
  unfold Graph.RootsApart
  simp only [roots_add, name?_add]

theorem rootsApart_foldl (requests : List LinkRequest) (l : Linked) :
    (requests.foldl add l).graph.RootsApart ↔ l.graph.RootsApart := by
  induction requests generalizing l with
  | nil => rfl
  | cons r rest ih => exact (ih (l.add r)).trans (rootsApart_add r)

/-- Links lead to objects with names. -/
theorem targetsNamed_add {l : Linked} (h : l.graph.TargetsNamed)
    (r : LinkRequest) : (l.add r).graph.TargetsNamed := by
  intro id o ho reference targets hg target hm
  rw [name?_add]
  cases hx : r.target l.graph with
  | error fault =>
    rw [add_of_error hx] at ho
    exact h id o ho reference targets hg target hm
  | ok found =>
    rw [add_of_ok hx] at ho
    rcases Graph.object?_update_eq_some ho with ho | ⟨object, hobject, rfl⟩
    · exact h id o ho reference targets hg target hm
    change (object.references.update r.reference.name _).get? reference =
      some targets at hg
    rw [NameMap.get?_update] at hg
    split at hg
    · cases hg
      rcases List.mem_append.1 hm with hm | hm
      · obtain ⟨given, hf, hm⟩ := NameMap.exists_of_mem_getD hm
        exact h _ object hobject _ given hf target hm
      · rw [List.mem_singleton.1 hm]
        exact Graph.name?_of_resolve? (r.resolve?_of_target hx)
    · exact h _ object hobject reference targets hg target hm

theorem targetsNamed_foldl (requests : List LinkRequest) {l : Linked}
    (h : l.graph.TargetsNamed) : (requests.foldl add l).graph.TargetsNamed := by
  induction requests generalizing l with
  | nil => exact h
  | cons r rest ih => exact ih (targetsNamed_add h r)

/-! ### Links in isomorphic graphs -/

/-- The graphs are isomorphic, and the problems of each unit the same. -/
structure Iso (ρ : ObjectId → ObjectId) (l l' : Linked) : Prop where
  graph : l.graph.Iso ρ l'.graph
  problems : l'.problems = l.problems

variable {ρ : ObjectId → ObjectId} {l l' : Linked}

theorem Iso.add (h : Iso ρ l l') (hr : l.graph.RootsApart) {r : LinkRequest}
    (hs : r.scope.index < l.graph.size) :
    Iso ρ (l.add r) (l'.add (r.rename ρ)) := by
  have ht := LinkRequest.target_rename h.graph hr hs
  cases hx : r.target l.graph with
  | ok target =>
    rw [hx] at ht
    rw [add_of_ok hx, add_of_ok ht]
    exact ⟨LinkRequest.iso_made h.graph r target, h.problems⟩
  | error fault =>
    rw [hx] at ht
    rw [add_of_error hx, add_of_error ht]
    refine ⟨h.graph, ?_⟩
    unfold report
    rw [h.problems]
    rfl

theorem Iso.foldl {requests : List LinkRequest} (h : Iso ρ l l')
    (hr : l.graph.RootsApart)
    (hs : ∀ r ∈ requests, r.scope.index < l.graph.size) :
    Iso ρ (requests.foldl Linked.add l)
      ((requests.map (LinkRequest.rename ρ)).foldl Linked.add l') := by
  induction requests generalizing l l' with
  | nil => exact h
  | cons r rest ih =>
    refine ih (h.add hr (hs r List.mem_cons_self))
      ((rootsApart_add r).2 hr) fun other ho => ?_
    rw [size_add]
    exact hs other (List.mem_cons_of_mem r ho)

end Linked

end ModelText
