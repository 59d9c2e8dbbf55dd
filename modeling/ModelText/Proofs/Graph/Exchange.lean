import ModelText.Proofs.Graph.Append
import ModelText.Proofs.Graph.Closed
import ModelText.Proofs.Graph.Isomorphism

/-!
# The order in which graphs are put together

Putting a graph behind isomorphic graphs gives isomorphic graphs. Putting two
closed graphs behind a third one in either order gives isomorphic graphs as
well: `ObjectId.exchange` renames the objects, and closedness says that no
object sees the difference.
-/

namespace ModelText

theorem ObjectId.exists_shift {n : Nat} {id : ObjectId} (h : n ≤ id.index) :
    ∃ other : ObjectId, other.shift n = id := by
  obtain ⟨i⟩ := id
  refine ⟨⟨i - n⟩, ?_⟩
  unfold shift
  rw [Nat.add_sub_cancel' h]

/-- An object of `n`, of the `a` behind them, of the `b` behind those, or of
none of them. -/
theorem ObjectId.three_groups (n a b : Nat) (id : ObjectId) :
    id.index < n ∨ (∃ other : ObjectId, other.index < a ∧ other.shift n = id) ∨
      (∃ other : ObjectId, other.index < b ∧ other.shift (n + a) = id) ∨
      n + a + b ≤ id.index := by
  rcases Nat.lt_or_ge id.index n with hn | hn
  · exact .inl hn
  rcases Nat.lt_or_ge id.index (n + a) with ha | ha
  · obtain ⟨other, rfl⟩ := exists_shift hn
    rw [index_shift] at ha
    exact .inr (.inl ⟨other, Nat.lt_of_add_lt_add_left ha, rfl⟩)
  rcases Nat.lt_or_ge id.index (n + a + b) with hb | hb
  · obtain ⟨other, rfl⟩ := exists_shift ha
    rw [index_shift] at hb
    exact .inr (.inr (.inl ⟨other, Nat.lt_of_add_lt_add_left hb, rfl⟩))
  · exact .inr (.inr (.inr hb))

/-- The numbers of `a` objects behind `n` others and of `b` objects behind
those, when the two groups change places. -/
def ObjectId.exchange (n a b : Nat) (id : ObjectId) : ObjectId :=
  if id.index < n then id
  else if id.index < n + a then ⟨id.index + b⟩
  else if id.index < n + a + b then ⟨id.index - a⟩
  else id

namespace ObjectId

variable {n a b : Nat} {id : ObjectId}

theorem exchange_of_lt (h : id.index < n) : id.exchange n a b = id :=
  if_pos h

theorem exchange_first (h : id.index < a) :
    (id.shift n).exchange n a b = id.shift (n + b) := by
  have hn : ¬(id.shift n).index < n := by
    rw [index_shift]
    omega
  have ha : (id.shift n).index < n + a := by
    rw [index_shift]
    omega
  unfold exchange
  rw [if_neg hn, if_pos ha, index_shift]
  unfold shift
  congr 1
  omega

theorem exchange_second (h : id.index < b) :
    (id.shift (n + a)).exchange n a b = id.shift n := by
  have hn : ¬(id.shift (n + a)).index < n := by
    rw [index_shift]
    omega
  have ha : ¬(id.shift (n + a)).index < n + a := by
    rw [index_shift]
    omega
  have hb : (id.shift (n + a)).index < n + a + b := by
    rw [index_shift]
    omega
  unfold exchange
  rw [if_neg hn, if_neg ha, if_pos hb, index_shift]
  unfold shift
  congr 1
  omega

theorem exchange_of_le (h : n + a + b ≤ id.index) : id.exchange n a b = id := by
  unfold exchange
  rw [if_neg (by omega), if_neg (by omega), if_neg (by omega)]

theorem exchange_injective (n a b : Nat) :
    Function.Injective (exchange n a b) := by
  intro x y h
  obtain ⟨i⟩ := x
  obtain ⟨j⟩ := y
  have hi := congrArg index h
  unfold exchange at hi
  congr 1
  dsimp only at hi
  grind

end ObjectId

theorem ObjectId.agree_exchange (n a b : Nat) :
    AgreeBelow n (exchange n a b) id :=
  fun _ h => exchange_of_lt h

theorem ObjectId.agree_exchange_first (n a b : Nat) :
    AgreeBelow a (exchange n a b ∘ shift n) (shift (n + b)) :=
  fun _ h => exchange_first h

theorem ObjectId.agree_exchange_second (n a b : Nat) :
    AgreeBelow b (exchange n a b ∘ shift (n + a)) (shift n) :=
  fun _ h => exchange_second h

namespace Graph

/-- Below the size of a closed graph is all that its objects mention. -/
theorem Closed.map_object? {g : Graph} (hg : g.Closed) (id : ObjectId)
    {f f' : ObjectId → ObjectId} (hf : AgreeBelow g.size f f') :
    (g.object? id).map (Object.rename f) =
      (g.object? id).map (Object.rename f') := by
  cases ho : g.object? id with
  | none => rfl
  | some o => exact congrArg some (hg.objects id o ho f f' hf)

theorem Closed.map_roots {g : Graph} (hg : g.Closed)
    {f f' : ObjectId → ObjectId} (hf : AgreeBelow g.size f f') :
    g.roots.map f = g.roots.map f' :=
  List.map_congr_left fun id hid => hf id (hg.roots id hid)

namespace Iso

variable {ρ : ObjectId → ObjectId} {g h : Graph} (hi : Iso ρ g h)

include hi

theorem lt_size {id : ObjectId} (hid : id.index < g.size) :
    (ρ id).index < h.size := by
  obtain ⟨o, ho⟩ := object?_eq_some_of_lt hid
  have hr := hi.objects id
  rw [ho] at hr
  exact lt_size_of_object? hr

theorem comp_shift : ρ ∘ ObjectId.shift g.size = ObjectId.shift h.size := by
  funext id
  have hid : g.size ≤ (id.shift g.size).index := Nat.le_add_right _ _
  rw [Function.comp_apply, hi.fixed _ hid, hi.size]

theorem append (k : Graph) : Iso ρ (g.append k) (h.append k) where
  injective := hi.injective
  size := by rw [size_append, size_append, hi.size]
  fixed id hid := by
    rw [size_append] at hid
    exact hi.fixed id (Nat.le_trans (Nat.le_add_right _ _) hid)
  objects id := by
    by_cases hid : id.index < g.size
    · rw [object?_append_of_lt _ _ hid,
        object?_append_of_lt _ _ (hi.lt_size hid), hi.objects]
    · obtain ⟨other, rfl⟩ := ObjectId.exists_shift (Nat.le_of_not_lt hid)
      have hs : ρ (other.shift g.size) = other.shift h.size :=
        congrFun hi.comp_shift other
      rw [hs, object?_append_shift, object?_append_shift, Option.map_map,
        ← hi.comp_shift]
      congr 1
      funext o
      exact (o.rename_rename _ _).symm
  roots := by
    unfold Graph.append
    dsimp only
    rw [List.map_append, List.map_map, hi.comp_shift]
    exact hi.roots.append_right _

end Iso

/-! ### Two graphs behind a third -/

section

variable (base x y : Graph) {id : ObjectId}

theorem object?_append_base (h : id.index < base.size) :
    ((base.append x).append y).object? id = base.object? id := by
  have hx : id.index < (base.append x).size := by
    rw [size_append]
    exact Nat.lt_add_right _ h
  rw [object?_append_of_lt _ _ hx, object?_append_of_lt _ _ h]

theorem object?_append_first (h : id.index < x.size) :
    ((base.append x).append y).object? (id.shift base.size) =
      (x.object? id).map (Object.rename (ObjectId.shift base.size)) := by
  have hx : (id.shift base.size).index < (base.append x).size := by
    rw [ObjectId.index_shift, size_append]
    exact Nat.add_lt_add_left h _
  rw [object?_append_of_lt _ _ hx, object?_append_shift]

theorem object?_append_second (id : ObjectId) :
    ((base.append x).append y).object? (id.shift (base.size + x.size)) =
      (y.object? id).map
        (Object.rename (ObjectId.shift (base.size + x.size))) := by
  rw [← size_append, object?_append_shift]

theorem object?_append_of_le (h : base.size + x.size + y.size ≤ id.index) :
    ((base.append x).append y).object? id = none := by
  rw [object?_eq_none_iff, size_append, size_append]
  exact h

theorem roots_append_append :
    ((base.append x).append y).roots = base.roots ++
      (x.roots.map (ObjectId.shift base.size) ++
        y.roots.map (ObjectId.shift (base.size + x.size))) := by
  rw [← size_append]
  exact List.append_assoc _ _ _

end

theorem map_rename_object? (g : Graph) (id : ObjectId)
    (f f' : ObjectId → ObjectId) :
    ((g.object? id).map (Object.rename f)).map (Object.rename f') =
      (g.object? id).map (Object.rename (f' ∘ f)) := by
  rw [Option.map_map]
  congr 1
  funext o
  exact o.rename_rename f f'

/-- Closed graphs can be put behind another one in either order. -/
theorem iso_exchange {base x y : Graph} (hb : base.Closed) (hx : x.Closed)
    (hy : y.Closed) :
    Iso (ObjectId.exchange base.size x.size y.size)
      ((base.append x).append y) ((base.append y).append x) where
  injective := ObjectId.exchange_injective _ _ _
  size := by
    simp only [size_append]
    omega
  fixed id hid := by
    rw [size_append, size_append] at hid
    exact ObjectId.exchange_of_le hid
  objects id := by
    rcases ObjectId.three_groups base.size x.size y.size id with
      h | ⟨other, h, rfl⟩ | ⟨other, h, rfl⟩ | h
    · rw [ObjectId.exchange_of_lt h, object?_append_base _ _ _ h,
        object?_append_base _ _ _ h,
        hb.map_object? id (ObjectId.agree_exchange _ _ _)]
      cases base.object? id with
      | none => rfl
      | some o => exact congrArg some o.rename_id.symm
    · rw [ObjectId.exchange_first h, object?_append_second,
        object?_append_first _ _ _ h, map_rename_object?,
        hx.map_object? other (ObjectId.agree_exchange_first _ _ _)]
    · rw [ObjectId.exchange_second h, object?_append_first _ _ _ h,
        object?_append_second, map_rename_object?,
        hy.map_object? other (ObjectId.agree_exchange_second _ _ _)]
    · have h' : base.size + y.size + x.size ≤ id.index := by
        rw [Nat.add_right_comm]
        exact h
      rw [ObjectId.exchange_of_le h, object?_append_of_le _ _ _ h,
        object?_append_of_le _ _ _ h']
      rfl
  roots := by
    rw [roots_append_append, roots_append_append, List.map_append,
      List.map_append, List.map_map, List.map_map,
      hb.map_roots (ObjectId.agree_exchange _ _ _),
      hx.map_roots (ObjectId.agree_exchange_first _ _ _),
      hy.map_roots (ObjectId.agree_exchange_second _ _ _), List.map_id]
    exact List.Perm.append_left _ List.perm_append_comm

end Graph

end ModelText
