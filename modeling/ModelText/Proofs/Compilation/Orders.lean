import ModelText.Proofs.Compilation.Units
import ModelText.Proofs.Construction.Closed
import ModelText.Proofs.Graph.Exchange

/-!
# The order in which units are built

Units built in another order have their shares of the session in another order.
`Progress.Iso ρ p q` compares what is left of the order: the objects are the
same under other numbers, each unit has the same problems and the same links,
and the units have the same roots. One more unit keeps this, and two units can
change places, so any order will do.
-/

namespace ModelText

namespace Workspace

variable (w : Workspace) (name : String)

/-- The roots of a unit in a session of its own. -/
def shareRoots : List ObjectId := (w.unit name .empty).1.roots

theorem closed_share : (w.share name).Closed :=
  (w.moves_share name).closed Session.closed_empty

theorem lt_size_of_mem_roots (s : Session) {id : ObjectId}
    (h : id ∈ (w.unit name s).1.roots) :
    id.index < (w.unit name s).2.graph.size := by
  unfold unit at h ⊢
  cases hf : w.fetch name with
  | none =>
    rw [hf] at h
    cases h
  | some text =>
    rw [hf] at h
    obtain ⟨type, ht⟩ := s.roots_walkUnit _ h
    exact Graph.lt_size_of_type? ht

theorem map_shareRoots {f f' : ObjectId → ObjectId}
    (hf : AgreeBelow (w.share name).graph.size f f') :
    (w.shareRoots name).map f = (w.shareRoots name).map f' :=
  List.map_congr_left fun id hid =>
    hf id (w.lt_size_of_mem_roots name .empty hid)

end Workspace

namespace Progress

/-- Units are built one by one, in a session that mentions only its own objects,
and the links that wait belong to the units of their elements. -/
structure Tidy (w : Workspace) (p : Progress) : Prop extends Sound w p where
  closed : p.construction.toSession.Closed
  roots : ∀ unit ∈ p.built, ∀ id ∈ unit.2, id.index < p.construction.graph.size
  scopes : ∀ r ∈ p.construction.requests, ∀ r' ∈ p.construction.requests,
    r.scope = r'.scope → r.source = r'.source

theorem tidy_start (w : Workspace) : Tidy w start where
  toSound := sound_start w
  closed := Session.closed_empty
  roots _ h := by cases h
  scopes _ h := by cases h

variable {w : Workspace} {p q : Progress}

/-- The roots of one more unit are those of its share. -/
theorem Sound.built_addUnit (h : Sound w p) (hu : w.fatalScope = .unit)
    {name : String} (hn : name ∉ p.processed) :
    (p.addUnit w name).built = p.built ++ [(name,
      (w.shareRoots name).map (ObjectId.shift p.construction.graph.size))] := by
  have hf : p.construction.toSession.sink.hasFatalIn name = false := by
    unfold Sink.hasFatalIn
    rw [h.problems, if_neg hn]
    rfl
  rw [(addUnit_added w h.handedOut name).built,
    w.roots_unit name _ hu hf]
  rfl

theorem Tidy.addUnit (h : Tidy w p) {name : String} (hn : name ∉ p.processed) :
    Tidy w (p.addUnit w name) := by
  have ha := addUnit_added w h.handedOut name
  refine ⟨h.toSound.addUnit hn, ?_, fun unit hm id hid => ?_, ?_⟩
  · rw [ha.session, ← w.session_unit]
    exact (w.moves_unit name _).closed h.closed
  · rw [ha.built] at hm
    rcases List.mem_append.1 hm with hm | hm
    · rw [ha.size]
      exact Nat.lt_add_right _ (h.roots unit hm id hid)
    · rw [List.mem_singleton.1 hm] at hid
      have hl := w.lt_size_of_mem_roots name _ hid
      rw [ha.session, ← w.session_unit]
      exact hl
  · -- Elements of this unit have higher numbers than those before.
    have hold : ∀ r ∈ p.construction.requests,
        r.scope.index < p.construction.graph.size := h.closed.requests
    have hnew : ∀ r ∈ (w.share name).requests.map
        (LinkRequest.rename (ObjectId.shift p.construction.graph.size)),
        r.source = name ∧ p.construction.graph.size ≤ r.scope.index := by
      intro r hr
      obtain ⟨r', hr', rfl⟩ := List.mem_map.1 hr
      change r'.source = name ∧ _
      exact ⟨Workspace.source_of_mem_share hr', Nat.le_add_right _ _⟩
    intro r hr r' hr' he
    rw [ha.requests] at hr hr'
    have hi := congrArg ObjectId.index he
    rcases List.mem_append.1 hr with hr | hr
    · rcases List.mem_append.1 hr' with hr' | hr'
      · exact h.scopes r hr r' hr' he
      · have := hold r hr
        have := (hnew r' hr').2
        omega
    · rcases List.mem_append.1 hr' with hr' | hr'
      · have := hold r' hr'
        have := (hnew r hr).2
        omega
      · exact (hnew r hr).1.trans (hnew r' hr').1.symm

theorem Tidy.addUnits (h : Tidy w p) {names : List String}
    (hd : (p.processed ++ names).Nodup) :
    Tidy w (names.foldl (Progress.addUnit w) p) := by
  induction names generalizing p with
  | nil => exact h
  | cons name rest ih =>
    exact ih (h.addUnit (not_mem_of_nodup_append hd)) (nodup_addUnit hd)

/-- The same units were built, perhaps in another order. -/
structure Iso (ρ : ObjectId → ObjectId) (p q : Progress) : Prop where
  graph : p.construction.graph.Iso ρ q.construction.graph
  problems : ∀ source,
    q.construction.sink.problems source = p.construction.sink.problems source
  requests : ∀ source,
    q.construction.requests.filter (·.source = source) =
      (p.construction.requests.filter (·.source = source)).map (.rename ρ)
  built : q.built.Perm (p.built.map fun unit => (unit.1, unit.2.map ρ))

theorem Iso.refl (p : Progress) : Iso id p p where
  graph := .refl _
  problems _ := rfl
  requests source := by
    have hr : LinkRequest.rename id = id := rfl
    rw [hr, List.map_id]
  built := by simp

theorem Iso.trans {ρ ρ' : ObjectId → ObjectId} {r : Progress}
    (h : Iso ρ p q) (h' : Iso ρ' q r) : Iso (ρ' ∘ ρ) p r where
  graph := h.graph.trans h'.graph
  problems source := (h'.problems source).trans (h.problems source)
  requests source := by
    rw [h'.requests, h.requests, List.map_map]
    rfl
  built := by
    have hb := h.built.map fun unit => (unit.1, unit.2.map ρ')
    refine h'.built.trans (hb.trans (List.Perm.of_eq ?_))
    simp [Function.comp_def]

theorem filter_rename (source : String) (ρ : ObjectId → ObjectId)
    (requests : List LinkRequest) :
    (requests.map (LinkRequest.rename ρ)).filter (·.source = source) =
      (requests.filter (·.source = source)).map (LinkRequest.rename ρ) := by
  rw [List.filter_map]
  rfl

theorem rename_shift (ρ : ObjectId → ObjectId) (n : Nat)
    (requests : List LinkRequest) :
    (requests.map (LinkRequest.rename (ObjectId.shift n))).map
        (LinkRequest.rename ρ) =
      requests.map (LinkRequest.rename (ρ ∘ ObjectId.shift n)) := by
  rw [List.map_map]
  rfl

theorem rename_congr {n : Nat} {f f' : ObjectId → ObjectId}
    (hf : AgreeBelow n f f') {requests : List LinkRequest}
    (hs : ∀ r ∈ requests, r.scope.index < n) :
    requests.map (LinkRequest.rename f) =
      requests.map (LinkRequest.rename f') := by
  refine List.map_congr_left fun r hr => ?_
  unfold LinkRequest.rename
  rw [hf _ (hs r hr)]

/-- A unit has no links of other units. -/
theorem filter_share {name source : String} (hs : source ≠ name)
    (ρ : ObjectId → ObjectId) :
    ((w.share name).requests.map (LinkRequest.rename ρ)).filter
      (·.source = source) = [] := by
  rw [filter_rename, List.map_eq_nil_iff, List.filter_eq_nil_iff]
  intro r hr hsource
  rw [Workspace.source_of_mem_share hr, decide_eq_true_iff] at hsource
  exact hs hsource.symm

theorem Iso.addUnit {ρ : ObjectId → ObjectId} (h : Iso ρ p q)
    (hu : w.fatalScope = .unit) (hp : Sound w p) (hq : Sound w q)
    {name : String} (hnp : name ∉ p.processed) (hnq : name ∉ q.processed) :
    Iso ρ (p.addUnit w name) (q.addUnit w name) := by
  have hap := addUnit_added w hp.handedOut name
  have haq := addUnit_added w hq.handedOut name
  have hc := h.graph.comp_shift
  refine ⟨?_, fun source => ?_, fun source => ?_, ?_⟩
  · rw [hap.graph, haq.graph]
    exact h.graph.append _
  · rw [hap.problems, haq.problems, h.problems, h.problems]
  · rw [hap.requests, haq.requests, List.filter_append, List.filter_append,
      List.map_append, h.requests, ← filter_rename source ρ (List.map _ _),
      rename_shift, hc]
  · rw [hp.built_addUnit hu hnp, hq.built_addUnit hu hnq, List.map_append]
    refine h.built.append (List.Perm.of_eq ?_)
    rw [List.map_singleton, List.map_map, hc]

/-! ### Two units -/

theorem not_mem_addUnit {x y : String} (hx : x ∉ p.processed) (hxy : x ≠ y) :
    x ∉ (p.addUnit w y).processed := by
  rw [processed_addUnit, List.mem_append, List.mem_singleton, not_or]
  exact ⟨hx, hxy⟩

theorem Tidy.map_built (h : Tidy w p) {f : ObjectId → ObjectId}
    (hf : AgreeBelow p.construction.graph.size f id) :
    p.built.map (fun unit => (unit.1, unit.2.map f)) = p.built := by
  refine (List.map_congr_left fun unit hm => ?_).trans (List.map_id _)
  refine Prod.ext rfl ((List.map_congr_left fun id hid => ?_).trans
    (List.map_id _))
  exact hf id (h.roots unit hm id hid)

section

variable (h : Sound w p) {x y : String} (hx : x ∉ p.processed)

include h hx

theorem Sound.graph_two : ((p.addUnit w x).addUnit w y).construction.graph =
    (p.construction.graph.append (w.share x).graph).append
      (w.share y).graph := by
  have hpx := h.addUnit hx
  rw [(addUnit_added w hpx.handedOut y).graph,
    (addUnit_added w h.handedOut x).graph]

theorem Sound.problems_two (hxy : x ≠ y) (source : String) :
    ((p.addUnit w x).addUnit w y).construction.sink.problems source =
      if source = y then p.construction.sink.problems y ++
        (w.share y).sink.problems y
      else if source = x then p.construction.sink.problems x ++
        (w.share x).sink.problems x
      else p.construction.sink.problems source := by
  have hpx := h.addUnit hx
  have hax := addUnit_added w h.handedOut x
  rw [(addUnit_added w hpx.handedOut y).problems, hax.problems, hax.problems,
    if_neg (Ne.symm hxy)]

theorem Sound.requests_two :
    ((p.addUnit w x).addUnit w y).construction.requests =
      p.construction.requests ++
        (w.share x).requests.map
          (LinkRequest.rename (ObjectId.shift p.construction.graph.size)) ++
        (w.share y).requests.map
          (LinkRequest.rename (ObjectId.shift
            (p.construction.graph.size + (w.share x).graph.size))) := by
  have hpx := h.addUnit hx
  have hax := addUnit_added w h.handedOut x
  rw [(addUnit_added w hpx.handedOut y).requests, hax.requests, hax.size]

theorem Sound.built_two (hu : w.fatalScope = .unit) (hxy : x ≠ y)
    (hy : y ∉ p.processed) :
    ((p.addUnit w x).addUnit w y).built = p.built ++
      [(x, (w.shareRoots x).map (ObjectId.shift p.construction.graph.size)),
        (y, (w.shareRoots y).map (ObjectId.shift
          (p.construction.graph.size + (w.share x).graph.size)))] := by
  have hpx := h.addUnit hx
  have hax := addUnit_added w h.handedOut x
  rw [hpx.built_addUnit hu (not_mem_addUnit hy (Ne.symm hxy)),
    h.built_addUnit hu hx, hax.size, List.append_assoc]
  rfl

end

/-- Two units can be built in either order. -/
theorem Tidy.iso_exchange (h : Tidy w p) (hu : w.fatalScope = .unit)
    {x y : String} (hxy : x ≠ y) (hx : x ∉ p.processed)
    (hy : y ∉ p.processed) :
    Iso (ObjectId.exchange p.construction.graph.size (w.share x).graph.size
        (w.share y).graph.size)
      ((p.addUnit w x).addUnit w y) ((p.addUnit w y).addUnit w x) := by
  have hyx := Ne.symm hxy
  have hs := h.toSound
  have hbase := ObjectId.agree_exchange p.construction.graph.size
    (w.share x).graph.size (w.share y).graph.size
  have hfirst := ObjectId.agree_exchange_first p.construction.graph.size
    (w.share x).graph.size (w.share y).graph.size
  have hsecond := ObjectId.agree_exchange_second p.construction.graph.size
    (w.share x).graph.size (w.share y).graph.size
  refine ⟨?_, fun source => ?_, fun source => ?_, ?_⟩
  · rw [hs.graph_two hx, hs.graph_two hy]
    exact Graph.iso_exchange h.closed.graph (w.closed_share x).graph
      (w.closed_share y).graph
  · rw [hs.problems_two hx hxy, hs.problems_two hy hyx]
    by_cases hsx : source = x
    · rw [if_pos hsx, if_pos hsx, if_neg fun hsy => hxy (hsx.symm.trans hsy)]
    · rw [if_neg hsx, if_neg hsx]
  · rw [hs.requests_two hx, hs.requests_two hy, ← filter_rename,
      List.map_append, List.map_append, rename_shift, rename_shift,
      rename_congr hbase h.closed.requests,
      rename_congr hfirst (w.closed_share x).requests,
      rename_congr hsecond (w.closed_share y).requests]
    have hid : LinkRequest.rename id = id := rfl
    rw [hid, List.map_id, List.filter_append, List.filter_append,
      List.filter_append, List.filter_append]
    -- One of the two units has no links of this source.
    by_cases hsx : source = x
    · have hsy : source ≠ y := fun hsy => hxy (hsx.symm.trans hsy)
      rw [filter_share hsy, List.append_nil, List.append_nil]
    · rw [filter_share hsx, List.append_nil, List.append_nil]
  · rw [hs.built_two hx hu hxy hy, hs.built_two hy hu hyx hx, List.map_append,
      h.map_built hbase, List.map_cons, List.map_singleton, List.map_map,
      List.map_map, w.map_shareRoots x hfirst, w.map_shareRoots y hsecond]
    exact List.Perm.append_left _ (List.Perm.swap _ _ _)

theorem Iso.addUnits {ρ : ObjectId → ObjectId} (h : Iso ρ p q)
    (hu : w.fatalScope = .unit) (hp : Sound w p) (hq : Sound w q)
    {names : List String} (hdp : (p.processed ++ names).Nodup)
    (hdq : (q.processed ++ names).Nodup) :
    Iso ρ (names.foldl (Progress.addUnit w) p)
      (names.foldl (Progress.addUnit w) q) := by
  induction names generalizing p q with
  | nil => exact h
  | cons name rest ih =>
    have hnp := not_mem_of_nodup_append hdp
    have hnq := not_mem_of_nodup_append hdq
    exact ih (h.addUnit hu hp hq hnp hnq) (hp.addUnit hnp) (hq.addUnit hnq)
      (nodup_addUnit hdp) (nodup_addUnit hdq)

/-- Units can be built in any order. -/
theorem Tidy.iso_of_perm (h : Tidy w p) (hu : w.fatalScope = .unit)
    {names names' : List String} (hn : names.Perm names')
    (hd : (p.processed ++ names).Nodup) :
    ∃ ρ, Iso ρ (names.foldl (Progress.addUnit w) p)
      (names'.foldl (Progress.addUnit w) p) := by
  induction hn generalizing p with
  | nil => exact ⟨id, .refl p⟩
  | cons name _ ih =>
    exact ih (h.addUnit (not_mem_of_nodup_append hd)) (nodup_addUnit hd)
  | swap x y rest =>
    have hy : y ∉ p.processed := not_mem_of_nodup_append hd
    have hnx := not_mem_of_nodup_append (nodup_addUnit (w := w) hd)
    have hx' := hnx
    rw [processed_addUnit, List.mem_append, List.mem_singleton, not_or] at hx'
    obtain ⟨hx, hxy⟩ := hx'
    have hd' : (p.processed ++ x :: y :: rest).Nodup :=
      ((List.Perm.swap x y rest).append_left _).nodup_iff.1 hd
    have hny := not_mem_of_nodup_append (nodup_addUnit (w := w) hd')
    refine ⟨_, (h.iso_exchange hu (Ne.symm hxy) hy hx).addUnits hu ?_ ?_ ?_ ?_⟩
    · exact (h.toSound.addUnit hy).addUnit hnx
    · exact (h.toSound.addUnit hx).addUnit hny
    · exact nodup_addUnit (nodup_addUnit hd)
    · exact nodup_addUnit (nodup_addUnit hd')
  | trans hn _ ih ih' =>
    obtain ⟨ρ, hi⟩ := ih h hd
    obtain ⟨ρ', hi'⟩ := ih' h ((hn.append_left _).nodup_iff.1 hd)
    exact ⟨ρ' ∘ ρ, hi.trans hi'⟩

end Progress

end ModelText
