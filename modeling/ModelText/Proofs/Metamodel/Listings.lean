import ModelText.Proofs.Metamodel.Exact
import ModelText.Proofs.Metamodel.WellFormed
import Mathlib.Data.List.Induction

/-!
# Lists of inherited features

An object type has three lists: its slots, the features that hold elements and
those that refer to elements. All three come of the lists of its supertypes and
of its own definitions in the same way, which `Listing` describes once. What is
said of a listing here and in the theory of inheritance holds for all three.

A list is put together by merging: an item takes the place of the one of its
name. So of the items of one name the last one that was merged is found, and it
does not matter in which place it stands.
-/

namespace ModelText

/-! ### Merging -/

section

variable {α : Type} {key : α → String}

theorem find?_replaceOrAppend (x : α) (list : List α) (name : String) :
    (replaceOrAppend key x list).find? (key · = name) =
      if key x = name then some x else list.find? (key · = name) := by
  induction list with
  | nil => simp [replaceOrAppend, List.find?_singleton]
  | cons y rest ih =>
    unfold replaceOrAppend
    by_cases hk : key y = key x
    · rw [if_pos hk]
      by_cases hx : key x = name <;> simp [hx, hk]
    · rw [if_neg hk, List.find?_cons, List.find?_cons, ih]
      by_cases hy : key y = name
      · have hx : key x ≠ name := fun hx => hk (hy.trans hx.symm)
        simp [hy, hx]
      · simp [hy]

/-- The last item of a name that is merged is the one that is found. -/
theorem find?_mergeNamed (into items : List α) (name : String) :
    (mergeNamed key into items).find? (key · = name) =
      (items.reverse.find? (key · = name)).or
        (into.find? (key · = name)) := by
  induction items generalizing into with
  | nil => rfl
  | cons x rest ih =>
    have hm : mergeNamed key into (x :: rest) =
      mergeNamed key (replaceOrAppend key x into) rest := rfl
    rw [hm, ih, find?_replaceOrAppend, List.reverse_cons, List.find?_append,
      Option.or_assoc]
    congr 1
    by_cases hx : key x = name <;> simp [hx]

theorem find?_reverse_of_nodup {list : List α} (h : (list.map key).Nodup)
    (name : String) :
    list.reverse.find? (key · = name) = list.find? (key · = name) := by
  have hr : (list.reverse.map key).Nodup := by
    rwa [List.map_reverse, List.nodup_reverse]
  refine Option.ext fun x => ?_
  rw [find?_key_eq_some_iff hr, find?_key_eq_some_iff h, List.mem_reverse]

/-- Merges the lists of several types, from left to right. -/
def mergeAll {τ : Type} (key : α → String) (all : τ → List α) (types : List τ) :
    List α :=
  types.foldl (fun list t => mergeNamed key list (all t)) []

theorem nodup_mergeAll {τ : Type} (all : τ → List α) (types : List τ) :
    ((mergeAll key all types).map key).Nodup := by
  unfold mergeAll
  generalize hl : ([] : List α) = list
  have h : (list.map key).Nodup := by
    rw [← hl]
    exact List.nodup_nil
  clear hl
  induction types generalizing list with
  | nil => exact h
  | cons t rest ih => exact ih _ (nodup_mergeNamed h)

/-- Of the items of a name, that of the last type that has one is found. -/
theorem find?_mergeAll {τ : Type} {all : τ → List α} {types : List τ}
    (h : ∀ t ∈ types, ((all t).map key).Nodup) (name : String) :
    (mergeAll key all types).find? (key · = name) =
      types.reverse.findSome? fun t => (all t).find? (key · = name) := by
  unfold mergeAll
  induction types using List.reverseRecOn with
  | nil => rfl
  | append_singleton types t ih =>
    have hn := h t (List.mem_append_right _ List.mem_cons_self)
    rw [List.foldl_append, List.foldl_cons, List.foldl_nil, find?_mergeNamed,
      find?_reverse_of_nodup hn,
      ih fun u hu => h u (List.mem_append_left _ hu), List.reverse_append]
    rw [List.reverse_singleton, List.singleton_append, List.findSome?_cons]
    cases (all t).find? (key · = name) <;> rfl

end

/-! ### What definitions give -/

/-- The value of a default in a slot of a kind of type. A whole number is a
decimal one where decimals are expected, and a text names a literal of an
enumeration. -/
def DefaultValue.value (kind : DeclaredKind) : DefaultValue → Value
  | .boolean value => .boolean value
  | .integer value =>
    if kind = .primitive .decimal then .decimal (.ofInt value.toInt)
    else .integer value
  | .decimal value => .decimal value
  | .text content =>
    if kind = .enumerated then .enumerated content else .string content

/-- The slot that a definition gives, for a kind of type. -/
def SlotDefinition.slot (d : SlotDefinition) (kind : DeclaredKind) : Slot where
  name := d.name
  type := d.type
  required := d.required
  many := d.many
  default := (d.default.map (·.value kind)).getD .null

/-- The feature that a definition gives. -/
def FeatureDefinition.feature (d : FeatureDefinition) : Feature where
  name := d.name
  target := d.target
  required := d.required
  many := d.many

namespace Context

variable {s : Schema} {c : Context} {owner : String}

theorem defaultValue_eq {kind : DeclaredKind} {type : String}
    {value : DefaultValue} {v : Value}
    (h : c.defaultValue kind type value = .ok v) : v = value.value kind := by
  unfold defaultValue at h
  split at h
  case h_7 =>
    split at h
    · cases h
      rfl
    · cases h
  all_goals cases h
  all_goals rfl

theorem slot_eq (hc : c.Of s) {d : SlotDefinition} {x : Slot}
    (h : c.slot owner d = .ok x) :
    ∃ kind, s.Declares d.type kind ∧ x = d.slot kind := by
  unfold slot at h
  split at h
  · cases h
  · cases h
  · rename_i kind _ hk
    refine ⟨kind, hc.get?_eq_some_iff.1 hk, ?_⟩
    split at h
    · rename_i hd
      cases h
      rw [SlotDefinition.slot, hd]
      rfl
    · rename_i value hd
      split at h
      · rename_i v hv
        cases h
        rw [SlotDefinition.slot, hd, defaultValue_eq hv]
        rfl
      · cases h

theorem feature_eq {d : FeatureDefinition} {x : Feature}
    (h : c.feature owner d = .ok x) : x = d.feature := by
  unfold feature at h
  split at h
  · cases h
    rfl
  · cases h
  · cases h

end Context

/-- A type is put together of what it has inherited and of its own items. -/
theorem Context.complete_eq {c : Context} {language : String}
    {d : ObjectDefinition} {i : Inheritance} {t : ObjectType}
    (h : c.complete language d i = .ok t) :
    ∃ slots compositions references, d.slots.mapM (c.slot d.name) = .ok slots ∧
      d.compositions.mapM (c.feature d.name) = .ok compositions ∧
      d.references.mapM (c.feature d.name) = .ok references ∧
      t = ⟨d.name, language, d.isAbstract, d.isRoot, i.supertypes,
        mergeNamed (·.name) i.slots slots,
        mergeNamed (·.name) i.compositions compositions,
        mergeNamed (·.name) i.references references⟩ := by
  obtain ⟨slots, hs, h⟩ := exists_of_bind_ok h
  obtain ⟨compositions, hc, h⟩ := exists_of_bind_ok h
  obtain ⟨references, hr, h⟩ := exists_of_bind_ok h
  cases h
  exact ⟨slots, compositions, references, hs, hc, hr, rfl⟩

/-- One of the lists of an object type: how it is put together of the lists of
the supertypes and of the definitions of the type itself, which are checked on
the way. -/
structure Listing (δ α : Type) where
  /-- The name of a definition. -/
  defined : δ → String
  /-- The name of an item. -/
  name : α → String
  /-- The definitions that the definition of a type has for this list. -/
  own : ObjectDefinition → List δ
  /-- The list of a type. -/
  all : ObjectType → List α
  /-- The list so far, while a type is put together. -/
  inherited : Inheritance → List α
  /-- The check of a definition. -/
  check : Context → String → δ → Except CatalogError α
  /-- A definition gives an item, said of the schema alone. -/
  Gives : Schema → δ → α → Prop
  name_of_gives : ∀ {s d x}, Gives s d x → name x = defined d
  gives_of_check : ∀ {s c owner d x}, Context.Of c s →
    check c owner d = .ok x → Gives s d x
  inherited_none : inherited .none = []
  inherited_inherit : ∀ i t,
    inherited (i.inherit t) = mergeNamed name (inherited i) (all t)
  all_complete : ∀ {c language d i t}, Context.complete c language d i = .ok t →
    ∃ items, (own d).mapM (check c d.name) = .ok items ∧
      all t = mergeNamed name (inherited i) items

namespace Listing

/-- The slots. -/
def slots : Listing SlotDefinition Slot where
  defined := (·.name)
  name := (·.name)
  own := (·.slots)
  all := (·.slots)
  inherited := (·.slots)
  check := Context.slot
  Gives s d x := ∃ kind, s.Declares d.type kind ∧ x = d.slot kind
  name_of_gives := by
    rintro _ d _ ⟨kind, -, rfl⟩
    rfl
  gives_of_check hc h := Context.slot_eq hc h
  inherited_none := rfl
  inherited_inherit _ _ := rfl
  all_complete := by
    intro c language d i t h
    obtain ⟨slots, compositions, references, hs, hc, hr, rfl⟩ :=
      Context.complete_eq h
    exact ⟨slots, hs, rfl⟩

/-- The features that hold elements. -/
def compositions : Listing FeatureDefinition Feature where
  defined := (·.name)
  name := (·.name)
  own := (·.compositions)
  all := (·.compositions)
  inherited := (·.compositions)
  check := Context.feature
  Gives _ d x := x = d.feature
  name_of_gives h := by rw [h]; rfl
  gives_of_check _ h := Context.feature_eq h
  inherited_none := rfl
  inherited_inherit _ _ := rfl
  all_complete := by
    intro c language d i t h
    obtain ⟨slots, compositions, references, hs, hc, hr, rfl⟩ :=
      Context.complete_eq h
    exact ⟨compositions, hc, rfl⟩

/-- The features that refer to elements. -/
def references : Listing FeatureDefinition Feature where
  defined := (·.name)
  name := (·.name)
  own := (·.references)
  all := (·.references)
  inherited := (·.references)
  check := Context.feature
  Gives _ d x := x = d.feature
  name_of_gives h := by rw [h]; rfl
  gives_of_check _ h := Context.feature_eq h
  inherited_none := rfl
  inherited_inherit _ _ := rfl
  all_complete := by
    intro c language d i t h
    obtain ⟨slots, compositions, references, hs, hc, hr, rfl⟩ :=
      Context.complete_eq h
    exact ⟨references, hr, rfl⟩

variable {δ α : Type} (l : Listing δ α)

/-- The item of a name in the list of a type. For the three lists, this is
`ObjectType.slot?`, `ObjectType.composition?` and `ObjectType.reference?`. -/
def find? (t : ObjectType) (name : String) : Option α :=
  (l.all t).find? (l.name · = name)

/-- The last definition of a name in the definition of a type. -/
def last? (d : ObjectDefinition) (name : String) : Option δ :=
  (l.own d).reverse.find? (l.defined · = name)

end Listing

end ModelText
