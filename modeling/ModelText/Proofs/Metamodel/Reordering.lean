import ModelText.Proofs.Metamodel.Inheritance
import Mathlib.Data.List.Perm.Basic

/-!
# The order of declaration

A schema may declare its languages in any order, and each language its types.
The same schemas come to a catalog then, and each name is the same type in it.

Object types are built from the first name on, each after its supertypes, so in
another order each table on the way holds other types. But every type is put
together of its own definition and of its direct supertypes as they are in the
end, whatever was built before. Going up from supertypes to types, both tables
are found to have the same types.
-/

namespace ModelText

/-! ### Lists in another order -/

section

variable {α β ε : Type}

/-- Of items with different keys, the same one is found in every order. -/
theorem find?_key_eq_of_perm {key : α → String} {list list' : List α}
    (h : list.Perm list') (hn : (list.map key).Nodup) (name : String) :
    list.find? (key · = name) = list'.find? (key · = name) := by
  have hn' : (list'.map key).Nodup := (h.map key).nodup_iff.1 hn
  refine Option.ext fun x => ?_
  rw [find?_key_eq_some_iff hn, find?_key_eq_some_iff hn', h.mem_iff]

/-- Items that are checked in another order give the same results, in another
order. -/
theorem perm_of_mapM_ok {f : α → Except ε β} {list list' : List α}
    {result result' : List β} (h : list.Perm list')
    (hr : list.mapM f = .ok result) (hr' : list'.mapM f = .ok result') :
    result.Perm result' := by
  obtain ⟨middle, hf, hp⟩ := List.perm_comp_forall₂ h (forall₂_of_mapM_ok hr')
  have hone : Relator.RightUnique fun a b => f a = .ok b :=
    fun _ _ _ hb hc => Except.ok.inj (hb.symm.trans hc)
  rw [hone.forall₂ (forall₂_of_mapM_ok hr) hf]
  exact hp

/-- What the items of two lists give in any order, the lists give in any
order. -/
theorem perm_flatMap_of_forall₂ {R : α → α → Prop} {f : α → List β}
    (hf : ∀ {a b}, R a b → (f a).Perm (f b)) {list list' : List α}
    (h : List.Forall₂ R list list') :
    (list.flatMap f).Perm (list'.flatMap f) := by
  induction h with
  | nil => exact .refl _
  | cons hab _ ih =>
    rw [List.flatMap_cons, List.flatMap_cons]
    exact (hf hab).append ih

end

/-! ### Schemas in another order -/

/-- A language with its definitions in any order, each kind for itself. -/
structure LanguageDefinition.Reordered (l l' : LanguageDefinition) : Prop where
  name : l.name = l'.name
  builtIns : l.builtIns = l'.builtIns
  objects : l.objects.Perm l'.objects
  records : l.records.Perm l'.records
  enums : l.enums.Perm l'.enums
  primitives : l.primitives.Perm l'.primitives

namespace LanguageDefinition.Reordered

variable {l l' : LanguageDefinition} (h : l.Reordered l')

include h

theorem declares : l.declares.Perm l'.declares :=
  (((h.objects.map _).append (h.records.map _)).append (h.enums.map _)).append
    (h.primitives.map _)

end LanguageDefinition.Reordered

namespace Schema

/-- A schema with its languages in any order, each with its definitions in any
order. -/
def Reordered (s s' : Schema) : Prop :=
  ∃ languages, s.languages.Perm languages ∧
    List.Forall₂ LanguageDefinition.Reordered languages s'.languages

/-- Two schemas say the same, whatever comes first. -/
structure SaysSame (s s' : Schema) : Prop where
  languageNames : s.languageNames.Perm s'.languageNames
  declared : s.declared.Perm s'.declared
  enumTypes : s.enumTypes.Perm s'.enumTypes
  recordDefinitions : s.recordDefinitions.Perm s'.recordDefinitions
  objectDefinitions : s.objectDefinitions.Perm s'.objectDefinitions

variable {s s' : Schema}

theorem Reordered.perm_flatMap {α : Type} {f : LanguageDefinition → List α}
    (h : s.Reordered s')
    (hf : ∀ {l l' : LanguageDefinition}, l.Reordered l' → (f l).Perm (f l')) :
    (s.languages.flatMap f).Perm (s'.languages.flatMap f) := by
  obtain ⟨languages, hp, hr⟩ := h
  refine (hp.flatMap_right f).trans ?_
  exact perm_flatMap_of_forall₂ (fun hl => hf hl) hr

theorem Reordered.saysSame (h : s.Reordered s') : s.SaysSame s' where
  languageNames := by
    have hp := h.perm_flatMap (f := fun l => [l.name])
      fun hl => .of_eq (congrArg (fun name => [name]) hl.name)
    rwa [← List.map_eq_flatMap, ← List.map_eq_flatMap] at hp
  declared := (h.perm_flatMap fun hl => hl.declares).append_left _
  enumTypes := h.perm_flatMap fun hl => by
    rw [hl.name]
    exact hl.enums.map _
  recordDefinitions := h.perm_flatMap fun hl => by
    rw [hl.name]
    exact hl.records.map _
  objectDefinitions := h.perm_flatMap fun hl => by
    rw [hl.name]
    exact hl.objects.map _

namespace SaysSame

variable (h : s.SaysSame s')

include h

theorem symm : s'.SaysSame s where
  languageNames := h.languageNames.symm
  declared := h.declared.symm
  enumTypes := h.enumTypes.symm
  recordDefinitions := h.recordDefinitions.symm
  objectDefinitions := h.objectDefinitions.symm

theorem declares_iff {name : String} {kind : DeclaredKind} :
    s.Declares name kind ↔ s'.Declares name kind := h.declared.mem_iff

theorem ownsSlot {owner : String} {slot : SlotDefinition}
    (ho : s.OwnsSlot owner slot) : s'.OwnsSlot owner slot := by
  cases ho with
  | record hd hs => exact .record (h.recordDefinitions.mem_iff.1 hd) hs
  | object hd hs => exact .object (h.objectDefinitions.mem_iff.1 hd) hs

theorem ownsFeature {owner : String} {feature : FeatureDefinition}
    (ho : s.OwnsFeature owner feature) : s'.OwnsFeature owner feature := by
  cases ho with
  | composition hd hf =>
    exact .composition (h.objectDefinitions.mem_iff.1 hd) hf
  | reference hd hf => exact .reference (h.objectDefinitions.mem_iff.1 hd) hf

theorem extends_of {type supertype : String} (he : s.Extends type supertype) :
    s'.Extends type supertype := by
  cases he with
  | intro hd hs => exact .intro (h.objectDefinitions.mem_iff.1 hd) hs

theorem defaultFits {type : String} {kind : DeclaredKind}
    {value : DefaultValue} (hf : s.DefaultFits type kind value) :
    s'.DefaultFits type kind value := by
  cases hf with
  | literal he hn ht => exact .literal (h.enumTypes.mem_iff.1 he) hn ht
  | integer => exact .integer
  | decimal => exact .decimal
  | whole => exact .whole
  | boolean => exact .boolean
  | string => exact .string
  | other => exact .other

/-- Which schemas are valid does not depend on the order. -/
theorem valid (hv : s.Valid) : s'.Valid where
  languages := h.languageNames.nodup_iff.1 hv.languages
  types := (h.declared.map Prod.fst).nodup_iff.1 hv.types
  slots owner slot ho := by
    obtain ⟨kind, hk, hn, hd⟩ := hv.slots owner slot (h.symm.ownsSlot ho)
    exact ⟨kind, h.declares_iff.1 hk, hn,
      fun value hx => h.defaultFits (hd value hx)⟩
  features owner feature ho :=
    h.declares_iff.1 (hv.features owner feature (h.symm.ownsFeature ho))
  supertypes type supertype he :=
    h.declares_iff.1 (hv.supertypes type supertype (h.symm.extends_of he))
  acyclic type hc :=
    hv.acyclic type
      (Relation.TransGen.mono (fun _ _ he => h.symm.extends_of he) _ _ hc)

end SaysSame

end Schema

/-! ### Checks in another order -/

namespace Context

variable {s s' : Schema} {c c' : Context}

/-- Checks against definitions in another order come to the same. -/
structure SameAnswers (c c' : Context) : Prop where
  slot : c.slot = c'.slot
  feature : c.feature = c'.feature

theorem SameAnswers.recordType (h : c.SameAnswers c') :
    c.recordType = c'.recordType := by
  unfold Context.recordType
  rw [h.slot]

theorem SameAnswers.complete (h : c.SameAnswers c') :
    c.complete = c'.complete := by
  unfold Context.complete
  rw [h.slot, h.feature]

theorem Of.get?_eq (hc : c.Of s) (hc' : c'.Of s') (h : s.SaysSame s')
    (name : String) : c.kinds.get? name = c'.kinds.get? name := by
  refine Option.ext fun kind => ?_
  rw [hc.get?_eq_some_iff, hc'.get?_eq_some_iff, h.declares_iff]

theorem Of.defaultValue_eq (hc : c.Of s) (hc' : c'.Of s') (h : s.SaysSame s') :
    c.defaultValue = c'.defaultValue := by
  have hl : ∀ type text,
      (c.enums.any fun t => t.name == type && t.hasLiteral text) =
        c'.enums.any fun t => t.name == type && t.hasLiteral text := by
    intro type text
    rw [Bool.eq_iff_iff, literal_iff hc, literal_iff hc']
    exact ⟨h.defaultFits, h.symm.defaultFits⟩
  funext kind type value
  unfold Context.defaultValue
  simp only [hl]

theorem Of.sameAnswers (hc : c.Of s) (hc' : c'.Of s') (h : s.SaysSame s') :
    c.SameAnswers c' where
  slot := by
    funext owner d
    unfold Context.slot
    rw [hc.get?_eq hc' h, hc.defaultValue_eq hc' h]
  feature := by
    funext owner d
    unfold Context.feature
    rw [hc.get?_eq hc' h]

end Context

/-! ### Catalogs in another order -/

namespace Schema

variable {s s' : Schema} {c c' : Catalog}

namespace Assembled

variable {d d' : Declarations} {records records' : List RecordType}
  {objects objects' : NameMap ObjectType}
  (ha : s.Assembled c d records objects)
  (ha' : s'.Assembled c' d' records' objects') (h : s.SaysSame s')

include ha

theorem nodup_records : (records.map (·.name)).Nodup := by
  have hn : s.recordDefinitions.map (·.2.name) = records.map (·.name) :=
    map_eq_map_of_forall₂ (forall₂_of_mapM_ok ha.recordTypes)
      fun _ _ hr => (Context.recordType_checked hr).1.symm
  rw [← hn]
  exact nodup_recordDefinitions ha.context_of.typeNames_nodup

include ha' h

theorem sameAnswers : (⟨d.kinds, s.enumTypes⟩ : Context).SameAnswers
    ⟨d'.kinds, s'.enumTypes⟩ :=
  ha.context_of.sameAnswers ha'.context_of h

/-- The records are checked one by one, so their order is all that changes. -/
theorem perm_records : records.Perm records' := by
  have hr := ha.recordTypes
  rw [(ha.sameAnswers ha' h).recordType] at hr
  exact perm_of_mapM_ok h.recordDefinitions hr ha'.recordTypes

/-- A type that was built in one order was built in the other one, since all its
supertypes were. -/
theorem get?_objects {name : String} {t : ObjectType}
    (ht : objects.get? name = some t) : objects'.get? name = some t := by
  have hcomposed := ha.objects_compose ht
  have hends : Acc (Function.swap s.Extends) name := by
    obtain ⟨language, definition, -, hd, hn, -⟩ := hcomposed
    exact ha.ends (declares_object_iff.2 ⟨language, definition, hd, hn⟩)
  clear hcomposed
  induction hends generalizing t with
  | intro name _ ih =>
    obtain ⟨language, definition, parents, hd, rfl, hs, hc⟩ :=
      ha.objects_compose ht
    have hd' := h.objectDefinitions.mem_iff.1 hd
    obtain ⟨t', ht', -⟩ := ha'.lookup?_of_declares
      (declares_object_iff.2 ⟨language, definition, hd', rfl⟩)
    obtain ⟨language', definition', parents', hd'', hn, hs', hc'⟩ :=
      ha'.objects_compose ht'
    cases List.inj_on_of_nodup_map
      (nodup_objectDefinitions ha'.context_of.typeNames_nodup) hd'' hd' hn
    have hparents : parents = parents' := by
      refine Relator.RightUnique.forall₂ ?_
        (forall₂_of_forall_mem hs fun supertype hm u hu =>
          ih supertype (.intro hd hm) hu) hs'
      exact fun _ _ _ hu hv => Option.some.inj (hu.symm.trans hv)
    rw [(ha.sameAnswers ha' h).complete, hparents, hc'] at hc
    rw [ht', Except.ok.inj hc]

end Assembled

/-- In a catalog of the same definitions in another order, each name is the same
type. -/
theorem lookup?_eq_of_saysSame (h : s.SaysSame s') (hc : s.catalog = .ok c)
    (hc' : s'.catalog = .ok c') (name : String) :
    c.lookup? name = c'.lookup? name := by
  obtain ⟨d, records, objects, ha⟩ := assembled_of_catalog hc
  obtain ⟨d', records', objects', ha'⟩ := assembled_of_catalog hc'
  rw [ha.lookup?_eq, ha'.lookup?_eq]
  have hk : d.kinds.get? name = d'.kinds.get? name :=
    ha.context_of.get?_eq ha'.context_of h name
  rw [hk]
  congr 1
  funext kind
  cases kind with
  | primitive kind => rfl
  | enumerated =>
    rw [typeInfo?, typeInfo?,
      find?_key_eq_of_perm h.enumTypes (nodup_enumTypes ha.declarations)]
  | record =>
    rw [typeInfo?, typeInfo?,
      find?_key_eq_of_perm (ha.perm_records ha' h) ha.nodup_records]
  | object =>
    have ho : objects.get? name = objects'.get? name := Option.ext fun t =>
      ⟨ha.get?_objects ha' h, ha'.get?_objects ha h.symm⟩
    rw [typeInfo?, typeInfo?, ho]

end Schema

/-- Whether what has the one type can stand where the other one is expected, if
the one is a type of objects. -/
def Catalog.conforms? (c : Catalog) (type target : String) : Option Bool :=
  ((c.lookup? type).bind (·.structured?)).map (·.conformsTo target)

namespace Schema

/-- The order of declaration does not matter. Of two schemas with the same
languages and types in different orders, both come to a catalog or none does;
and then each name is the same type in both, and the same types conform. -/
theorem catalog_reordered {s s' : Schema} (h : s.Reordered s') :
    ((∃ c, s.catalog = .ok c) ↔ ∃ c, s'.catalog = .ok c) ∧
      ∀ c c', s.catalog = .ok c → s'.catalog = .ok c' →
        (∀ name, c.metamodel.lookup? name = c'.metamodel.lookup? name) ∧
          ∀ type target, c.conforms? type target = c'.conforms? type target := by
  have hs := h.saysSame
  constructor
  · rw [(catalog_exact s).1, (catalog_exact s').1]
    exact ⟨hs.valid, hs.symm.valid⟩
  · intro c c' hc hc'
    have hl : ∀ name, c.lookup? name = c'.lookup? name :=
      lookup?_eq_of_saysSame hs hc hc'
    refine ⟨hl, fun type target => ?_⟩
    unfold Catalog.conforms?
    rw [hl]

/-- A language of colors, and behind it the shapes. -/
def colorsAndShapes : Schema :=
  ⟨⟨"colors", [], [], [], [⟨"Color", ["red", "green"]⟩], []⟩ ::
    diamond.languages⟩

/-- The shapes first, each in front of its supertypes. -/
def shapesAndColors : Schema :=
  ⟨[⟨"shapes", [], [shapeType "Ball" ["Large", "Round"] [],
      shapeType "Round" ["Shape"] [], shapeType "Large" ["Shape"] [2],
      shapeType "Shape" [] [1]], [], [], []⟩,
    ⟨"colors", [], [], [], [⟨"Color", ["red", "green"]⟩], []⟩]⟩

/-- A ball that is declared in front of all other types is the same ball. -/
theorem catalog_reordered_ball :
    colorsAndShapes.Reordered shapesAndColors ∧
      ∃ c c', colorsAndShapes.catalog = .ok c ∧
        shapesAndColors.catalog = .ok c' ∧
        c.lookup? "Ball" = some (.object ball) ∧
        c'.lookup? "Ball" = some (.object ball) := by
  have hr : colorsAndShapes.Reordered shapesAndColors := by
    refine ⟨_, .swap _ _ [], .cons ⟨rfl, rfl, by decide, .refl _, .refl _,
      .refl _⟩ (.cons ⟨rfl, rfl, .refl _, .refl _, .refl _, .refl _⟩ .nil)⟩
  obtain ⟨c, hc, hl⟩ : ∃ c, colorsAndShapes.catalog = .ok c ∧
      c.lookup? "Ball" = some (.object ball) :=
    exists_ok_of_any (by decide +kernel)
  obtain ⟨hbuilds, hsame⟩ := catalog_reordered hr
  obtain ⟨c', hc'⟩ := hbuilds.1 ⟨c, hc⟩
  exact ⟨hr, c, c', hc, hc', hl, ((hsame c c' hc hc').1 "Ball").symm.trans hl⟩

end Schema

end ModelText
