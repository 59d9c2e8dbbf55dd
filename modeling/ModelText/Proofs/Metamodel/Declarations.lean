import ModelText.Metamodel.Checking
import ModelText.Proofs.NameMap
import Mathlib.Data.List.Flatten
import Mathlib.Data.List.Nodup

/-!
# Declared names

The declarations of a schema are the standard primitive types and behind them
what the languages declare, in order, and no name is declared twice. So the
kind of a name says in which list its definition is found, and that there is
only one.
-/

namespace ModelText

/-! ### Lists item by item -/

section

variable {α β : Type} {R : α → β → Prop} {list : List α}

theorem split_of_forall₂ {before after : List β} {b : β}
    (h : List.Forall₂ R list (before ++ b :: after)) :
    ∃ before' a after', list = before' ++ a :: after' ∧
      List.Forall₂ R before' before ∧ R a b ∧ List.Forall₂ R after' after := by
  induction before generalizing list with
  | nil =>
    cases h with
    | cons ha h => exact ⟨[], _, _, rfl, .nil, ha, h⟩
  | cons first before ih =>
    cases h with
    | cons hf h =>
      obtain ⟨before', a, after', rfl, hb, ha, hr⟩ := ih h
      exact ⟨_ :: before', a, after', rfl, .cons hf hb, ha, hr⟩

theorem forall₂_of_forall_mem {S : α → β → Prop} {list' : List β}
    (h : List.Forall₂ R list list') (hs : ∀ a ∈ list, ∀ b, R a b → S a b) :
    List.Forall₂ S list list' := by
  induction h with
  | nil => exact .nil
  | cons ha _ ih =>
    exact .cons (hs _ List.mem_cons_self _ ha)
      (ih fun a hm => hs a (List.mem_cons_of_mem _ hm))

theorem exists_of_mem_right {list' : List β} (h : List.Forall₂ R list list')
    {b : β} (hb : b ∈ list') : ∃ a ∈ list, R a b := by
  obtain ⟨before, after, rfl⟩ := List.append_of_mem hb
  obtain ⟨before', a, after', rfl, -, ha, -⟩ := split_of_forall₂ h
  exact ⟨a, List.mem_append_right _ List.mem_cons_self, ha⟩

theorem exists_of_mem_left {list' : List β} (h : List.Forall₂ R list list')
    {a : α} (ha : a ∈ list) : ∃ b ∈ list', R a b :=
  exists_of_mem_right h.flip ha

theorem map_eq_map_of_forall₂ {γ : Type} {f : α → γ} {g : β → γ}
    {list' : List β} (h : List.Forall₂ R list list')
    (hfg : ∀ a b, R a b → f a = g b) : list.map f = list'.map g := by
  rw [← List.forall₂_eq_eq_eq, List.forall₂_map_left_iff,
    List.forall₂_map_right_iff]
  exact h.imp hfg

end

/-! ### Items found by a key -/

section

variable {α : Type} {key : α → String} {list : List α} {name : String} {x : α}

theorem exists_find?_key (hx : x ∈ list) (hk : key x = name) :
    ∃ y ∈ list, key y = name ∧ list.find? (key · = name) = some y := by
  have hs : (list.find? (key · = name)).isSome :=
    List.find?_isSome.2 ⟨x, hx, decide_eq_true hk⟩
  obtain ⟨y, hy⟩ := Option.isSome_iff_exists.1 hs
  have hyk := List.find?_some hy
  exact ⟨y, List.mem_of_find?_eq_some hy, of_decide_eq_true hyk, hy⟩

/-- Of items with different keys, the one that is found is the one that has the
key. -/
theorem find?_key_eq_some_iff (h : (list.map key).Nodup) :
    list.find? (key · = name) = some x ↔ x ∈ list ∧ key x = name := by
  constructor
  · intro hx
    have hk := List.find?_some hx
    exact ⟨List.mem_of_find?_eq_some hx, of_decide_eq_true hk⟩
  · rintro ⟨hx, hk⟩
    obtain ⟨y, hy, hyk, hfound⟩ := exists_find?_key hx hk
    rw [hfound, List.inj_on_of_nodup_map h hy hx (hyk.trans hk.symm)]

end

/-! ### Loops that can fail -/

section

variable {α β ε : Type}

theorem exists_of_bind_ok {x : Except ε α} {f : α → Except ε β} {b : β}
    (h : (x >>= f) = .ok b) : ∃ a, x = .ok a ∧ f a = .ok b := by
  cases x with
  | error e => cases h
  | ok a => exact ⟨a, rfl, h⟩

/-- There is a result if it can be tested for a property. -/
theorem exists_ok_of_any {x : Except ε α} {P : α → Prop} [DecidablePred P]
    (h : (x.toOption.any fun a => P a) = true) : ∃ a, x = .ok a ∧ P a := by
  cases x with
  | error e => cases h
  | ok a => exact ⟨a, rfl, of_decide_eq_true h⟩

/-- What every round of a loop keeps holds behind the loop. -/
theorem foldlM_ok {P : β → Prop} {f : β → α → Except ε β} {list : List α}
    (hf : ∀ b, ∀ a ∈ list, ∀ b', P b → f b a = .ok b' → P b') {b b' : β}
    (hb : P b) (h : list.foldlM f b = .ok b') : P b' := by
  induction list generalizing b with
  | nil =>
    cases h
    exact hb
  | cons a rest ih =>
    obtain ⟨c, ha, hr⟩ := exists_of_bind_ok h
    exact ih (fun b a hm => hf b a (List.mem_cons_of_mem _ hm))
      (hf b a List.mem_cons_self c hb ha) hr

theorem mapM_cons_ok {f : α → Except ε β} {a : α} {rest : List α}
    {result : List β} (h : (a :: rest).mapM f = .ok result) :
    ∃ b others, f a = .ok b ∧ rest.mapM f = .ok others ∧
      result = b :: others := by
  rw [List.mapM_cons] at h
  obtain ⟨b, ha, h⟩ := exists_of_bind_ok h
  obtain ⟨others, hr, h⟩ := exists_of_bind_ok h
  cases h
  exact ⟨b, others, ha, hr, rfl⟩

/-- What a loop gives, item by item. -/
theorem forall₂_of_mapM_ok {f : α → Except ε β} {list : List α}
    {result : List β} (h : list.mapM f = .ok result) :
    List.Forall₂ (fun a b => f a = .ok b) list result := by
  induction list generalizing result with
  | nil =>
    cases h
    exact .nil
  | cons a rest ih =>
    obtain ⟨b, others, ha, hr, rfl⟩ := mapM_cons_ok h
    exact .cons ha (ih hr)

theorem mem_of_mapM_ok {f : α → Except ε β} {list : List α} {result : List β}
    (h : list.mapM f = .ok result) {b : β} (hb : b ∈ result) :
    ∃ a ∈ list, f a = .ok b := exists_of_mem_right (forall₂_of_mapM_ok h) hb

theorem exists_mem_of_mapM_ok {f : α → Except ε β} {list : List α}
    {result : List β} (h : list.mapM f = .ok result) {a : α} (ha : a ∈ list) :
    ∃ b ∈ result, f a = .ok b := exists_of_mem_left (forall₂_of_mapM_ok h) ha

end

/-- The definition of a type is taken from the free ones, of which less are left
then. -/
theorem Context.of_find?_free {free : List (String × ObjectDefinition)}
    {name language : String} {d : ObjectDefinition}
    (h : free.find? (·.2.name = name) = some (language, d)) :
    (language, d) ∈ free ∧ d.name = name ∧
      (free.eraseP (·.2.name = name)).length < free.length := by
  have hm := List.mem_of_find?_eq_some h
  have hl := List.length_eraseP_of_mem hm (List.find?_some h)
  have hpos := List.length_pos_of_mem hm
  have hn := List.find?_some h
  exact ⟨hm, of_decide_eq_true hn, by omega⟩

/-! ### Declarations -/

namespace Declarations

theorem entries_declareType {kinds kinds' : NameMap DeclaredKind}
    {declarations : List (String × DeclaredKind)}
    (h : declarations.foldlM declareType kinds = .ok kinds') :
    kinds'.entries = kinds.entries ++ declarations := by
  induction declarations generalizing kinds with
  | nil =>
    cases h
    exact (List.append_nil _).symm
  | cons declaration rest ih =>
    obtain ⟨next, hd, hr⟩ := exists_of_bind_ok h
    unfold declareType at hd
    split at hd
    · cases hd
    · rename_i hc
      cases hd
      have hn := NameMap.contains_eq_false_iff.1 (Bool.not_eq_true _ ▸ hc)
      rw [ih hr, NameMap.entries_insert_of_not_mem hn, List.append_assoc]
      rfl

theorem entries_declareLanguage {d d' : Declarations} {l : LanguageDefinition}
    (h : d.declareLanguage l = .ok d') :
    d'.kinds.entries = d.kinds.entries ++ l.declares := by
  unfold declareLanguage at h
  split at h
  · cases h
  · obtain ⟨kinds, hk, h⟩ := exists_of_bind_ok h
    cases h
    exact entries_declareType hk

theorem entries_declareLanguages {d d' : Declarations}
    {languages : List LanguageDefinition}
    (h : languages.foldlM declareLanguage d = .ok d') :
    d'.kinds.entries =
      d.kinds.entries ++ languages.flatMap LanguageDefinition.declares := by
  induction languages generalizing d with
  | nil =>
    cases h
    exact (List.append_nil _).symm
  | cons l rest ih =>
    obtain ⟨next, hl, hr⟩ := exists_of_bind_ok h
    rw [ih hr, entries_declareLanguage hl, List.append_assoc]
    rfl

end Declarations

namespace Schema

variable {s : Schema} {d : Declarations}

theorem entries_declarations (h : s.declarations = .ok d) :
    d.kinds.entries = Declarations.initial.kinds.entries ++
      s.languages.flatMap LanguageDefinition.declares :=
  Declarations.entries_declareLanguages h

theorem declared_of_kind (h : s.declarations = .ok d) {name : String}
    {kind : DeclaredKind} (hk : d.kinds.get? name = some kind)
    (hp : ∀ primitive, kind ≠ .primitive primitive) :
    ∃ l ∈ s.languages, (name, kind) ∈ l.declares := by
  rw [NameMap.get?_eq_some_iff, entries_declarations h] at hk
  rcases List.mem_append.1 hk with hk | hk
  · have hi : Declarations.initial.kinds.entries =
        [("Integer", .primitive .integer), ("Decimal", .primitive .decimal),
          ("Boolean", .primitive .boolean), ("String", .primitive .string)] :=
      rfl
    simp only [hi, List.mem_cons, Prod.mk.injEq, List.not_mem_nil,
      or_false] at hk
    rcases hk with ⟨-, hk⟩ | ⟨-, hk⟩ | ⟨-, hk⟩ | ⟨-, hk⟩ <;>
      exact absurd hk (hp _)
  · exact List.mem_flatMap.1 hk

/-- A name declared as an enumeration has a definition. -/
theorem exists_enumType (h : s.declarations = .ok d) {name : String}
    (hk : d.kinds.get? name = some .enumerated) :
    ∃ e ∈ s.enumTypes, e.name = name := by
  obtain ⟨l, hl, hm⟩ := declared_of_kind h hk nofun
  simp only [LanguageDefinition.declares, List.mem_append, List.mem_map,
    Prod.mk.injEq, reduceCtorEq, and_false, exists_false, and_true, false_or,
    or_false] at hm
  obtain ⟨e, he, rfl⟩ := hm
  exact ⟨_, List.mem_flatMap.2 ⟨l, hl, List.mem_map.2 ⟨e, he, rfl⟩⟩, rfl⟩

/-- A name declared as a record type has a definition. -/
theorem exists_recordDefinition (h : s.declarations = .ok d) {name : String}
    (hk : d.kinds.get? name = some .record) :
    ∃ r ∈ s.recordDefinitions, r.2.name = name := by
  obtain ⟨l, hl, hm⟩ := declared_of_kind h hk nofun
  simp only [LanguageDefinition.declares, List.mem_append, List.mem_map,
    Prod.mk.injEq, reduceCtorEq, and_false, exists_false, and_true, false_or,
    or_false] at hm
  obtain ⟨r, hr, rfl⟩ := hm
  exact ⟨_, List.mem_flatMap.2 ⟨l, hl, List.mem_map.2 ⟨r, hr, rfl⟩⟩, rfl⟩

/-- No two enumerations have one name. -/
theorem nodup_enumTypes (h : s.declarations = .ok d) :
    (s.enumTypes.map (·.name)).Nodup := by
  have hn := d.kinds.nodup_names
  rw [entries_declarations h, List.map_append, List.map_flatMap] at hn
  have hs : (s.enumTypes.map (·.name)).Sublist
      (s.languages.flatMap fun l => l.declares.map Prod.fst) := by
    unfold enumTypes
    rw [List.map_flatMap]
    refine List.Sublist.flatMap_right s.languages fun l _ => ?_
    rw [List.map_map, LanguageDefinition.declares, List.map_append,
      List.map_append, List.map_append, List.map_map, List.map_map,
      List.map_map]
    exact (List.sublist_append_right _ _).trans (List.sublist_append_left _ _)
  exact (List.nodup_append.1 hn).2.1.sublist hs

theorem enumType_unique (h : s.declarations = .ok d) {e e' : EnumType}
    (he : e ∈ s.enumTypes) (he' : e' ∈ s.enumTypes) (hn : e.name = e'.name) :
    e = e' :=
  List.inj_on_of_nodup_map (nodup_enumTypes h) he he' hn

/-! ### A language of shapes -/

/-- A language with a single type, and the units that come with it. Shapes have
parts, and a shape can be next to another one. -/
def shapesWith (builtIns : List (String × String)) : Schema :=
  ⟨[⟨"shapes", builtIns, [⟨"Shape", false, true, [], [],
    [⟨"parts", "Shape", false, true⟩], [⟨"next", "Shape", false, false⟩]⟩],
    [], [], []⟩]⟩

/-- The language, when no units come with it. -/
def shapes : Schema := shapesWith []

end Schema

end ModelText
