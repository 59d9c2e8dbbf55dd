import ModelText.Proofs.Graph.InPlace
import Mathlib.Data.List.Nodup

/-!
# Books of containment

Who holds what is noted three times: by the object that is held, by a feature of
its holder, and by the holder among all that it holds. A graph keeps its books
if the three notes tell the same, if nothing is noted twice, and if only objects
are noted that are there.

No change asks for that, and none can break it, whatever objects and features it
is given: only an attachment writes to the books, of an object that is in none
of them, and it makes all three notes or none. Rings of holders are well kept
books too.
-/

namespace ModelText.Graph

variable {g h : Graph} {op : Operation} {id holder : ObjectId}

/-- What an object holds is what its features hold. -/
theorem mem_contents :
    id ∈ g.contents holder ↔ ∃ feature, id ∈ g.childrenOf holder feature := by
  unfold contents childrenOf Object.contents Object.held
  cases g.object? holder with
  | none => simp
  | some o =>
    simp only [Option.map_some, Option.getD_some, List.mem_flatMap]
    constructor
    · rintro ⟨⟨feature, held⟩, he, hm⟩
      refine ⟨feature, ?_⟩
      rw [NameMap.get?_eq_some_iff.2 he]
      exact hm
    · rintro ⟨feature, hm⟩
      obtain ⟨held, he, hm⟩ := NameMap.exists_of_mem_getD hm
      exact ⟨(feature, held), NameMap.get?_eq_some_iff.1 he, hm⟩

theorem targets_update {f : Object → Object}
    (hf : ∀ o, (f o).references = o.references) (source : ObjectId)
    (feature : String) :
    (g.update id f).targets source feature = g.targets source feature := by
  apply read_update (F := fun o => (o.map (Object.targets · feature)).getD [])
  intro o
  simp only [Option.map_some, Object.targets, hf]

/-- The notes of what is held agree, and what is held or referred to is there. -/
structure KeepsBooks (g : Graph) : Prop where
  /-- The place of an object is where it is listed. -/
  place : ∀ id holder feature, g.place? id = some ⟨holder, feature⟩ ↔
    id ∈ g.childrenOf holder feature
  /-- No object holds another one twice. -/
  distinct : ∀ holder, (g.contents holder).Nodup
  /-- The objects held are those that the features hold. -/
  children : ∀ holder, (g.children holder).Perm (g.contents holder)
  /-- Each feature holds its objects in the order of attachment. -/
  order : ∀ holder feature,
    (g.childrenOf holder feature).Sublist (g.children holder)
  held : ∀ holder feature, ∀ id ∈ g.childrenOf holder feature, id.index < g.size
  linked : ∀ source feature, ∀ id ∈ g.targets source feature, id.index < g.size

namespace KeepsBooks

theorem empty : KeepsBooks Graph.empty where
  place _ _ _ := ⟨nofun, nofun⟩
  distinct _ := List.nodup_nil
  children _ := .nil
  order _ _ := .slnil
  held _ _ _ := nofun
  linked _ _ _ := nofun

/-- An object that is listed anywhere has a place. -/
theorem not_mem_contents (hg : g.KeepsBooks) (hfree : g.place? id = none) :
    id ∉ g.contents holder := by
  intro hm
  obtain ⟨feature, hm⟩ := mem_contents.1 hm
  rw [(hg.place ..).2 hm] at hfree
  cases hfree

/-- Among all that is held by anyone, nothing is listed twice. -/
theorem nodup_flatMap_contents (hg : g.KeepsBooks) :
    (g.ids.flatMap g.contents).Nodup := by
  have hids : g.ids.Nodup := by
    refine List.pairwise_map.2 (List.nodup_range.imp fun hn he => ?_)
    exact hn (congrArg ObjectId.index he)
  refine List.nodup_flatMap.2 ⟨fun holder _ => hg.distinct holder, ?_⟩
  refine hids.imp fun {holder other} hne id hm hm' => hne ?_
  obtain ⟨feature, hm⟩ := mem_contents.1 hm
  obtain ⟨feature', hm'⟩ := mem_contents.1 hm'
  have hplace := (hg.place ..).2 hm
  rw [(hg.place ..).2 hm'] at hplace
  cases hplace
  rfl

/-- Where the same is held, and where only objects are linked that are there,
the books are kept. -/
theorem congr (hg : g.KeepsBooks) (hs : g.size ≤ h.size)
    (hplace : ∀ id, h.place? id = g.place? id)
    (hof : ∀ id feature, h.childrenOf id feature = g.childrenOf id feature)
    (hall : ∀ id, h.contents id = g.contents id)
    (hchildren : ∀ id, h.children id = g.children id)
    (hlinked : ∀ source feature, ∀ id ∈ h.targets source feature,
      id ∈ g.targets source feature ∨ id.index < h.size) : h.KeepsBooks where
  place id holder feature := by
    rw [hplace, hof]
    exact hg.place id holder feature
  distinct holder := by
    rw [hall]
    exact hg.distinct holder
  children holder := by
    rw [hchildren, hall]
    exact hg.children holder
  order holder feature := by
    rw [hof, hchildren]
    exact hg.order holder feature
  held holder feature id hm := by
    rw [hof] at hm
    exact Nat.lt_of_lt_of_le (hg.held _ _ id hm) hs
  linked source feature id hm := by
    rcases hlinked source feature id hm with hold | hlt
    · exact Nat.lt_of_lt_of_le (hg.linked _ _ id hold) hs
    · exact hlt

/-! ### Changes that hold nothing -/

theorem instantiate (hg : g.KeepsBooks) (type : StructuredType)
    (isRoot : Bool) : (g.instantiate type isRoot).2.KeepsBooks := by
  apply hg.congr
  · rw [size_instantiate]
    exact Nat.le_succ _
  · exact place?_instantiate g type isRoot
  · exact childrenOf_instantiate g type isRoot
  · exact read_instantiate (F := fun o => (o.map Object.contents).getD []) rfl
      isRoot
  · exact read_instantiate (F := fun o => (o.map Object.children).getD []) rfl
      isRoot
  · intro source feature x hm
    refine .inl ?_
    rwa [show (g.instantiate type isRoot).2.targets source feature =
      g.targets source feature from read_instantiate
        (F := fun o => (o.map (Object.targets · feature)).getD []) rfl isRoot
        source] at hm

/-- A change of an object that leaves its place, what it holds and what it refers
to. -/
theorem update (hg : g.KeepsBooks) {f : Object → Object}
    (hp : ∀ o, (f o).place = o.place)
    (hc : ∀ o, (f o).compositions = o.compositions)
    (hk : ∀ o, (f o).children = o.children)
    (hr : ∀ o, (f o).references = o.references) : (g.update id f).KeepsBooks := by
  apply hg.congr
  · exact Nat.le_of_eq (size_update ..).symm
  · exact place?_update hp
  · exact childrenOf_update hc
  · exact contents_update hc
  · exact children_update hk
  · intro source feature x hx
    rw [targets_update hr] at hx
    exact .inl hx

theorem setName (hg : g.KeepsBooks) {name : String}
    (hm : g.setName id name = .ok h) : h.KeepsBooks := by
  rw [setName_eq_ok hm]
  apply hg.update <;> exact fun _ => rfl

theorem setValue (hg : g.KeepsBooks) {slot : Slot} {value : Value}
    (hm : g.setValue slot id value = .ok h) : h.KeepsBooks := by
  rw [setValue_eq_ok hm]
  apply hg.update <;> exact fun _ => rfl

theorem link (hg : g.KeepsBooks) {reference : Feature} {source target : ObjectId}
    (hm : g.link reference source target = .ok h) : h.KeepsBooks := by
  have htargets := targets_link hm
  obtain ⟨⟨object, found, hr⟩, rfl⟩ := link_eq_ok hm
  apply hg.congr
  · exact Nat.le_of_eq (size_update ..).symm
  · exact place?_update fun _ => rfl
  · exact childrenOf_update fun _ => rfl
  · exact contents_update fun _ => rfl
  · exact children_update fun _ => rfl
  · intro other feature x hx
    rw [htargets] at hx
    rcases List.mem_append.1 hx with hold | hnew
    · exact .inl hold
    · split at hnew
      · rw [List.mem_singleton.1 hnew, size_update]
        exact .inr (lt_size_of_object? hr.target)
      · cases hnew

/-! ### Attachments -/

section

variable {composition : Feature} {parent child : ObjectId}
  (hm : g.addChild composition parent child = .ok h)

include hm

theorem addChild (hg : g.KeepsBooks) : h.KeepsBooks where
  place id holder feature := by
    obtain ⟨hfree, hplace⟩ := place?_addChild hm id
    rw [hplace, childrenOf_addChild hm, List.mem_append]
    by_cases hc : id = child
    · -- the child was free, so it was listed nowhere
      subst hc
      have hnot : id ∉ g.childrenOf holder feature := by
        intro hx
        rw [(hg.place ..).2 hx] at hfree
        cases hfree
      rw [if_pos rfl, or_iff_right hnot, Option.some.injEq, Place.mk.injEq]
      split
      · next ho =>
        exact iff_of_true ⟨ho.1.symm, ho.2.symm⟩ (List.mem_singleton.2 rfl)
      · next ho =>
        refine iff_of_false (fun he => ho ?_) List.not_mem_nil
        exact ⟨he.1.symm, he.2.symm⟩
    · rw [if_neg hc, hg.place]
      refine ⟨.inl, fun hx => hx.resolve_right fun hx => hc ?_⟩
      split at hx
      · exact List.mem_singleton.1 hx
      · cases hx
  distinct holder := by
    refine List.nodup_iff_count_le_one.2 fun x => ?_
    have hold := List.nodup_iff_count_le_one.1 (hg.distinct holder) x
    rw [count_contents_addChild hm]
    by_cases hx : x = child
    · have hfree := (place?_addChild hm x).1
      rw [← hx] at hfree ⊢
      rw [List.count_eq_zero_of_not_mem (hg.not_mem_contents hfree)]
      split <;> simp
    · have hnew : (if holder = parent then [child] else []).count x = 0 := by
        split
        · exact List.count_eq_zero_of_not_mem fun hs =>
            hx (List.mem_singleton.1 hs)
        · rfl
      rwa [hnew, Nat.zero_add]
  children holder := by
    refine List.perm_iff_count.2 fun x => ?_
    rw [children_addChild hm, count_contents_addChild hm, List.count_append,
      List.perm_iff_count.1 (hg.children holder) x, Nat.add_comm]
  order holder feature := by
    rw [childrenOf_addChild hm, children_addChild hm]
    apply (hg.order holder feature).append
    split
    · next ho => rw [if_pos ho.1]
    · exact List.nil_sublist _
  held holder feature x hx := by
    obtain ⟨⟨object, found, hh⟩, hupdate⟩ := addChild_eq_ok hm
    rw [childrenOf_addChild hm] at hx
    rw [hupdate, size_update, size_update]
    rcases List.mem_append.1 hx with hold | hnew
    · exact hg.held _ _ x hold
    · split at hnew
      · rw [List.mem_singleton.1 hnew]
        exact lt_size_of_object? hh.child
      · cases hnew
  linked source feature x hx := by
    rw [(addChild_eq_ok hm).2] at hx ⊢
    rw [targets_update, targets_update] at hx
    · rw [size_update, size_update]
      exact hg.linked _ _ x hx
    · exact fun _ => rfl
    · exact fun _ => rfl

end

/-! ### Runs -/

/-- Every change keeps the books. -/
theorem apply (hg : g.KeepsBooks) (hm : op.apply g = .ok h) :
    h.KeepsBooks := by
  cases op with
  | instantiate type isRoot =>
    cases hm
    exact hg.instantiate type isRoot
  | setName object name => exact hg.setName hm
  | setValue slot object value => exact hg.setValue hm
  | link reference source target => exact hg.link hm
  | addChild composition parent child => exact hg.addChild hm

theorem step (hg : g.KeepsBooks) (op : Operation) : (g.step op).KeepsBooks := by
  unfold Graph.step
  split
  · next hm => exact hg.apply hm
  · exact hg

theorem run (hg : g.KeepsBooks) (ops : List Operation) :
    (g.run ops).KeepsBooks := by
  induction ops generalizing g with
  | nil => exact hg
  | cons op rest ih => exact ih (hg.step op)

end KeepsBooks

/-! ### Roots -/

/-- The object that a change creates as a root. -/
def Operation.root? (g : Graph) : Operation → Option ObjectId
  | .instantiate type true => some (g.instantiate type true).1
  | _ => none

/-- The objects that a run creates as roots, in the order of creation. -/
def rootsMade (g : Graph) : List Operation → List ObjectId
  | [] => []
  | op :: rest => (op.root? g).toList ++ (g.step op).rootsMade rest

theorem roots_apply (hm : op.apply g = .ok h) :
    h.roots = g.roots ++ (op.root? g).toList := by
  cases op with
  | instantiate type isRoot =>
    cases hm
    cases isRoot with
    | false => exact (List.append_nil _).symm
    | true => rfl
  | setName object name =>
    rw [setName_eq_ok hm]
    exact (List.append_nil _).symm
  | setValue slot object value =>
    rw [setValue_eq_ok hm]
    exact (List.append_nil _).symm
  | link reference source target =>
    rw [(link_eq_ok hm).2]
    exact (List.append_nil _).symm
  | addChild composition parent child =>
    rw [(addChild_eq_ok hm).2]
    exact (List.append_nil _).symm

theorem roots_step (g : Graph) (op : Operation) :
    (g.step op).roots = g.roots ++ (op.root? g).toList := by
  unfold step
  split
  · next hm => exact roots_apply hm
  · next hm =>
    cases op with
    | instantiate type isRoot => cases hm
    | _ => exact (List.append_nil _).symm

theorem roots_run (g : Graph) (ops : List Operation) :
    (g.run ops).roots = g.roots ++ g.rootsMade ops := by
  induction ops generalizing g with
  | nil => exact (List.append_nil _).symm
  | cons op rest ih =>
    change ((g.step op).run rest).roots = _
    rw [ih, roots_step, List.append_assoc]
    rfl

/-- Makes changes in place, one after the other, also behind one that fails. -/
def performAll (g : Graph) (ops : List Operation) : Graph :=
  ops.foldl (fun g op => (op.perform.exec g).2) g

theorem performAll_eq (g : Graph) (ops : List Operation) :
    g.performAll ops = g.run ops := by
  unfold performAll run
  simp only [exec_perform_snd]

/-- **Behind any changes of the empty graph, made in place, the books are
kept.** Nobody holds what somebody holds, and the roots are the objects created as
such. The next attachment that succeeds is in the books, and the next change that
fails leaves the graph as it is. -/
theorem performAll_keepsBooks (ops : List Operation) :
    let g := empty.performAll ops
    g.KeepsBooks ∧ (g.ids.flatMap g.contents).Nodup ∧
      g.roots = empty.rootsMade ops ∧
      (∀ (composition : Feature) (parent child : ObjectId) (h : Graph),
        (Operation.addChild composition parent child).perform.exec g =
          (.ok ⟨⟩, h) → h.place? child = some ⟨parent, composition.name⟩) ∧
      ∀ (op : Operation) (rule : Error) (h : Graph),
        op.perform.exec g = (.error rule, h) → h = g := by
  intro g
  have hg : g.KeepsBooks := by
    unfold g
    rw [performAll_eq]
    exact KeepsBooks.empty.run ops
  refine ⟨hg, hg.nodup_flatMap_contents, ?_, ?_, ?_⟩
  · unfold g
    rw [performAll_eq]
    exact roots_run empty ops
  · intro composition parent child h he
    have hm : g.addChild composition parent child = .ok h :=
      exec_perform_eq_ok.1 he
    rw [(place?_addChild hm child).2, if_pos rfl]
  · exact fun _ _ _ => eq_of_exec_perform_error

end ModelText.Graph
