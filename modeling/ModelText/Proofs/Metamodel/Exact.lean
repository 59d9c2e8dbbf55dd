import ModelText.Proofs.Metamodel.Validity
import ModelText.Proofs.Verdict

/-!
# The checks of a schema are exact

Every schema ends in a catalog or in a defect. It ends in a catalog just when it
is valid, and a defect that is named is there.

Each check is followed to both of its ends: where it passes, the part it looks
at is valid; where it fails, the defect is present. For the order of inheritance
this takes an invariant on each side. A type that was built has been built after
all its supertypes, so no path of inheritance from it goes on for ever; and from
each definition that is not free any more a path leads to the type at hand, so a
type that is met without being free inherits from itself.
-/

namespace ModelText

open Relation (TransGen ReflTransGen)

/-! ### Declarations -/

theorem two_le_count_of_mem {name : String} {before after : List String}
    (h : name ∈ before) : 2 ≤ (before ++ name :: after).count name := by
  have := List.count_pos_iff.2 h
  rw [List.count_append, List.count_cons_self]
  omega

namespace Declarations

variable {s : Schema}

theorem declareType_verdict {kinds : NameMap DeclaredKind}
    {list later : List (String × DeclaredKind)}
    (hs : s.declared = kinds.entries ++ list ++ later) :
    Verdict (fun kinds' : NameMap DeclaredKind =>
        kinds'.entries = kinds.entries ++ list)
      (CatalogError.Present s) (list.foldlM declareType kinds) := by
  refine Verdict.foldlM (P := fun done (k : NameMap DeclaredKind) =>
    k.entries = kinds.entries ++ done) ?_ (List.append_nil _).symm
  intro done declaration rest hl k hk
  have hn : s.typeNames =
      k.names ++ declaration.1 :: (rest ++ later).map Prod.fst := by
    unfold Schema.typeNames NameMap.names
    rw [hs, hl, hk]
    simp
  unfold declareType
  split
  · rename_i hm
    have hm : declaration.1 ∈ k.names := by
      by_contra hm
      rw [NameMap.contains_eq_false_iff.2 hm] at *
      contradiction
    change 2 ≤ s.typeNames.count declaration.1
    rw [hn]
    exact two_le_count_of_mem hm
  · rename_i hm
    have hm := NameMap.contains_eq_false_iff.1 (Bool.not_eq_true _ ▸ hm)
    change (k.insert declaration.1 declaration.2).entries = _
    rw [NameMap.entries_insert_of_not_mem hm, hk, List.append_assoc]

theorem declareLanguage_verdict {d : Declarations}
    {before after : List LanguageDefinition} {l : LanguageDefinition}
    (hs : s.languages = before ++ l :: after)
    (hl : d.languages.toList = before.map (·.name))
    (hk : d.kinds.entries =
      initial.kinds.entries ++ before.flatMap LanguageDefinition.declares) :
    Verdict (fun d' : Declarations =>
        d'.languages.toList = (before ++ [l]).map (·.name) ∧
        d'.kinds.entries = initial.kinds.entries ++
          (before ++ [l]).flatMap LanguageDefinition.declares)
      (CatalogError.Present s) (d.declareLanguage l) := by
  have hn : s.languageNames =
      d.languages.toList ++ l.name :: after.map (·.name) := by
    rw [Schema.languageNames, hs, hl]
    simp
  unfold declareLanguage
  split
  · rename_i hm
    change 2 ≤ s.languageNames.count l.name
    rw [hn]
    exact two_le_count_of_mem (NameSet.contains_eq_true.1 hm)
  · rename_i hm
    have hm : l.name ∉ d.languages := fun h => hm (NameSet.contains_eq_true.2 h)
    have ht : s.declared = d.kinds.entries ++ l.declares ++
        after.flatMap LanguageDefinition.declares := by
      rw [Schema.declared, hs, hk]
      simp
      rfl
    apply (declareType_verdict ht).bind
    intro kinds hkinds
    refine ⟨?_, ?_⟩
    · change (d.languages.insert l.name).toList = _
      rw [NameSet.toList_insert_of_not_mem hm, hl, List.map_append]
      rfl
    · change kinds.entries = _
      rw [hkinds, hk]
      simp

end Declarations

namespace Schema

variable {s : Schema}

theorem declarations_verdict :
    Verdict (fun d : Declarations => s.languageNames.Nodup ∧
        d.kinds.entries = s.declared)
      (CatalogError.Present s) s.declarations := by
  have h : Verdict (fun d : Declarations =>
        d.languages.toList = s.languages.map (·.name) ∧
        d.kinds.entries = Declarations.initial.kinds.entries ++
          s.languages.flatMap LanguageDefinition.declares)
      (CatalogError.Present s) s.declarations := by
    refine Verdict.foldlM (P := fun done (d : Declarations) =>
      d.languages.toList = done.map (·.name) ∧
        d.kinds.entries = Declarations.initial.kinds.entries ++
          done.flatMap LanguageDefinition.declares) ?_
      ⟨rfl, (List.append_nil _).symm⟩
    intro done l rest hs d hd
    exact Declarations.declareLanguage_verdict hs hd.1 hd.2
  refine h.mono fun d hd => ⟨?_, hd.2⟩
  rw [languageNames, ← hd.1]
  exact d.languages.nodup

theorem declares_object_iff {name : String} :
    s.Declares name .object ↔
      ∃ language d, (language, d) ∈ s.objectDefinitions ∧ d.name = name := by
  constructor
  · intro h
    rcases List.mem_append.1 h with h | h
    · obtain ⟨d, -, hd⟩ := List.mem_map.1 h
      cases hd
    · obtain ⟨l, hl, hm⟩ := List.mem_flatMap.1 h
      simp only [LanguageDefinition.declares, List.mem_append, List.mem_map,
        Prod.mk.injEq, reduceCtorEq, and_false, exists_false, and_true,
        or_false] at hm
      obtain ⟨d, hd, hn⟩ := hm
      exact ⟨l.name, d,
        List.mem_flatMap.2 ⟨l, hl, List.mem_map.2 ⟨d, hd, rfl⟩⟩, hn⟩
  · rintro ⟨language, d, hm, rfl⟩
    obtain ⟨l, hl, hd⟩ := List.mem_flatMap.1 hm
    obtain ⟨d', hd', he⟩ := List.mem_map.1 hd
    cases he
    refine List.mem_append_right _ (List.mem_flatMap.2 ⟨l, hl, ?_⟩)
    simp only [LanguageDefinition.declares, List.append_assoc]
    exact List.mem_append_left _ (List.mem_map.2 ⟨d, hd', rfl⟩)

/-- Names that each language declares are different, once names are declared
once. -/
theorem nodup_flatMap_names (h : s.typeNames.Nodup)
    {names : LanguageDefinition → List String}
    (hn : ∀ l, (names l).Sublist (l.declares.map Prod.fst)) :
    (s.languages.flatMap names).Nodup := by
  rw [typeNames, declared, List.map_append, List.map_flatMap] at h
  exact (List.nodup_append.1 h).2.1.sublist
    (List.Sublist.flatMap_right s.languages fun l _ => hn l)

/-- No two object types have one name, once names are declared once. -/
theorem nodup_objectDefinitions (h : s.typeNames.Nodup) :
    (s.objectDefinitions.map (·.2.name)).Nodup := by
  unfold objectDefinitions
  rw [List.map_flatMap]
  refine nodup_flatMap_names h fun l => ?_
  rw [List.map_map, LanguageDefinition.declares, List.append_assoc,
    List.append_assoc, List.map_append, List.map_map]
  exact List.sublist_append_left _ _

/-- No two record types have one name, once names are declared once. -/
theorem nodup_recordDefinitions (h : s.typeNames.Nodup) :
    (s.recordDefinitions.map (·.2.name)).Nodup := by
  unfold recordDefinitions
  rw [List.map_flatMap]
  refine nodup_flatMap_names h fun l => ?_
  rw [List.map_map, LanguageDefinition.declares, List.append_assoc,
    List.append_assoc, List.map_append, List.map_append, List.map_map,
    List.map_map]
  exact (List.sublist_append_left _ _).trans (List.sublist_append_right _ _)

/-- An object type has one definition, once names are declared once. -/
theorem definition_eq (h : s.typeNames.Nodup) {language language' : String}
    {d d' : ObjectDefinition} (hd : (language, d) ∈ s.objectDefinitions)
    (hd' : (language', d') ∈ s.objectDefinitions) (hn : d'.name = d.name) :
    d' = d :=
  congrArg Prod.snd
    (List.inj_on_of_nodup_map (nodup_objectDefinitions h) hd' hd hn)

/-- What a type extends is what its definition names. -/
theorem extends_iff (h : s.typeNames.Nodup) {language : String}
    {d : ObjectDefinition} (hd : (language, d) ∈ s.objectDefinitions)
    {supertype : String} :
    s.Extends d.name supertype ↔ supertype ∈ d.supertypes := by
  refine ⟨fun he => ?_, .intro hd⟩
  generalize hn : d.name = type at he
  cases he with
  | intro hd' hm =>
    cases definition_eq h hd hd' hn.symm
    exact hm

end Schema

/-! ### Slots and features -/

/-- What the definitions of a schema are checked against. -/
structure Context.Of (c : Context) (s : Schema) : Prop where
  kinds : c.kinds.entries = s.declared
  enums : c.enums = s.enumTypes

namespace Context

variable {s : Schema} {c : Context}

theorem Of.get?_eq_some_iff (h : c.Of s) {name : String} {kind : DeclaredKind} :
    c.kinds.get? name = some kind ↔ s.Declares name kind := by
  rw [NameMap.get?_eq_some_iff, h.kinds]
  rfl

theorem Of.not_mem_typeNames (h : c.Of s) {name : String}
    (hn : c.kinds.get? name = none) : name ∉ s.typeNames := by
  intro hm
  obtain ⟨kind, hk⟩ := Schema.mem_typeNames.1 hm
  rw [h.get?_eq_some_iff.2 hk] at hn
  cases hn

theorem Of.typeNames_nodup (h : c.Of s) : s.typeNames.Nodup := by
  unfold Schema.typeNames
  rw [← h.kinds]
  exact c.kinds.nodup_names

theorem literal_iff (h : c.Of s) {type text : String} :
    (c.enums.any fun t => t.name == type && t.hasLiteral text) = true ↔
      s.DefaultFits type .enumerated (.text text) := by
  rw [List.any_eq_true, h.enums]
  simp only [Bool.and_eq_true, beq_iff_eq, EnumType.hasLiteral,
    decide_eq_true_eq]
  constructor
  · rintro ⟨e, he, hn, ht⟩
    exact .literal he hn ht
  · intro hf
    cases hf with
    | literal he hn ht => exact ⟨_, he, hn, ht⟩

theorem defaultValue_verdict (h : c.Of s) (kind : DeclaredKind) (type : String)
    (value : DefaultValue) :
    Verdict (fun _ => s.DefaultFits type kind value)
      (fun fault => ¬ s.DefaultFits type kind value ∧ fault.Tells kind type value)
      (c.defaultValue kind type value) := by
  cases kind with
  | object => exact ⟨nofun, rfl, rfl⟩
  | record => exact ⟨nofun, rfl⟩
  | enumerated =>
    cases value with
    | text text =>
      unfold defaultValue
      dsimp only
      split
      · rename_i hl
        exact (literal_iff h).1 hl
      · rename_i hl
        exact ⟨fun hf => hl ((literal_iff h).2 hf), rfl, rfl, rfl⟩
    | _ => exact ⟨nofun, rfl, rfl⟩
  | primitive kind =>
    cases kind <;> cases value <;>
      first
      | exact ⟨nofun, rfl, rfl⟩
      | constructor

theorem slot_verdict (h : c.Of s) {owner : String} {d : SlotDefinition}
    (ho : s.OwnsSlot owner d) :
    Verdict (fun _ => s.SlotValid d) (CatalogError.Present s)
      (c.slot owner d) := by
  unfold slot
  split
  · rename_i hn
    exact ⟨.inl ⟨d, ho, rfl, rfl⟩, h.not_mem_typeNames hn⟩
  · rename_i hk
    exact ⟨⟨d, ho, rfl, rfl⟩, h.get?_eq_some_iff.1 hk⟩
  · rename_i kind hx hk
    have hk := h.get?_eq_some_iff.1 hk
    split
    · rename_i hd
      refine ⟨kind, hk, hx, fun value hv => ?_⟩
      rw [hd] at hv
      cases hv
    · rename_i value hd
      have hv := defaultValue_verdict h kind d.type value
      split
      · rename_i he
        refine ⟨kind, hk, hx, fun value' hv' => ?_⟩
        rw [hd] at hv'
        cases hv'
        exact hv.of_ok he
      · rename_i he
        obtain ⟨hn, ht⟩ := hv.of_error he
        exact ⟨d, kind, value, ho, rfl, hk, hd, hn, ht⟩

theorem feature_verdict (h : c.Of s) {owner : String} {d : FeatureDefinition}
    (ho : s.OwnsFeature owner d) :
    Verdict (fun _ => s.Declares d.target .object) (CatalogError.Present s)
      (c.feature owner d) := by
  unfold feature
  split
  · rename_i hk
    exact h.get?_eq_some_iff.1 hk
  · rename_i kind hx hk
    exact ⟨⟨d, ho, rfl, rfl⟩, kind, h.get?_eq_some_iff.1 hk, hx⟩
  · rename_i hn
    exact ⟨.inr ⟨d, ho, rfl, rfl⟩, h.not_mem_typeNames hn⟩

theorem recordType_verdict (h : c.Of s) {language : String}
    {d : RecordDefinition} (hd : (language, d) ∈ s.recordDefinitions) :
    Verdict (fun _ => ∀ slot ∈ d.slots, s.SlotValid slot)
      (CatalogError.Present s) (c.recordType language d) := by
  apply (Verdict.mapM fun slot hs => slot_verdict h (.record hd hs)).bind
  exact fun _ hs => hs

end Context

/-! ### Inheritance -/

namespace Schema

variable (s : Schema)

/-- What the definition of an object type says of other types is right. -/
structure ObjectValid (d : ObjectDefinition) : Prop where
  slots : ∀ slot ∈ d.slots, s.SlotValid slot
  compositions : ∀ feature ∈ d.compositions, s.Declares feature.target .object
  references : ∀ feature ∈ d.references, s.Declares feature.target .object
  supertypes : ∀ supertype ∈ d.supertypes, s.Declares supertype .object

/-- A type that can be built: its definition is right, and no path of
inheritance from it goes on for ever. -/
structure Buildable (name : String) : Prop where
  valid : ∀ language d, (language, d) ∈ s.objectDefinitions → d.name = name →
    s.ObjectValid d
  ends : Acc (Function.swap s.Extends) name

variable {s}

/-- A path that cannot go on for ever does not come round. -/
theorem not_cycle_of_acc {name : String}
    (h : Acc (Function.swap s.Extends) name) :
    ¬ TransGen s.Extends name name := by
  induction h with
  | intro name _ ih =>
    intro hc
    obtain ⟨next, hn, hr⟩ := Relation.TransGen.head'_iff.1 hc
    exact ih next hn (.tail' hr hn)

theorem ends_of_supertypes (hs : s.typeNames.Nodup) {language : String}
    {d : ObjectDefinition} (hd : (language, d) ∈ s.objectDefinitions)
    (h : ∀ supertype ∈ d.supertypes, Acc (Function.swap s.Extends) supertype) :
    Acc (Function.swap s.Extends) d.name :=
  Acc.intro _ fun supertype he => h supertype ((extends_iff hs hd).1 he)

end Schema

namespace Context

variable {s : Schema} {c : Context}

theorem complete_verdict (h : c.Of s) {language : String} {d : ObjectDefinition}
    (hd : (language, d) ∈ s.objectDefinitions)
    (hs : ∀ supertype ∈ d.supertypes, s.Declares supertype .object)
    (inherited : Inheritance) :
    Verdict (fun _ => s.ObjectValid d) (CatalogError.Present s)
      (c.complete language d inherited) := by
  apply (Verdict.mapM fun slot hm => slot_verdict h (.object hd hm)).bind
  intro _ hslots
  apply (Verdict.mapM fun f hm => feature_verdict h (.composition hd hm)).bind
  intro _ hcompositions
  apply (Verdict.mapM fun f hm => feature_verdict h (.reference hd hm)).bind
  intro _ hreferences
  exact ⟨hslots, hcompositions, hreferences, hs⟩

/-- What building object types adds: all that is there can be built, and what
was built before is still there. -/
structure Builds (s : Schema) (built : NameMap ObjectType) (names : List String)
    (built' : NameMap ObjectType) : Prop where
  buildable : ∀ name, built'.contains name = true → s.Buildable name
  declared : ∀ name ∈ names, s.Declares name .object
  added : ∀ name ∈ names, built'.contains name = true
  kept : ∀ name, built.contains name = true → built'.contains name = true

theorem Builds.nil {built : NameMap ObjectType}
    (h : ∀ name, built.contains name = true → s.Buildable name) :
    Builds s built [] built :=
  ⟨h, fun _ hm => absurd hm List.not_mem_nil,
    fun _ hm => absurd hm List.not_mem_nil, fun _ hm => hm⟩

theorem Builds.append {built built₁ built₂ : NameMap ObjectType}
    {names names' : List String} (h : Builds s built names built₁)
    (h' : Builds s built₁ names' built₂) :
    Builds s built (names ++ names') built₂ where
  buildable := h'.buildable
  declared name hm := by
    rcases List.mem_append.1 hm with hm | hm
    · exact h.declared name hm
    · exact h'.declared name hm
  added name hm := by
    rcases List.mem_append.1 hm with hm | hm
    · exact h'.kept name (h.added name hm)
    · exact h'.added name hm
  kept name hm := h'.kept name (h.kept name hm)

theorem Builds.insert {built built' : NameMap ObjectType} {names : List String}
    (h : Builds s built names built') {name : String} (hn : s.Buildable name)
    (hd : s.Declares name .object) (type : ObjectType) :
    Builds s built [name] (built'.insert name type) := by
  have hi : ∀ other, (built'.insert name type).contains other = true ↔
      other = name ∨ built'.contains other = true := by
    intro other
    unfold NameMap.contains
    rw [NameMap.get?_insert]
    split <;> simp [*]
  refine ⟨fun other ho => ?_, fun other ho => ?_, fun other ho => ?_,
    fun other ho => ?_⟩
  · rcases (hi other).1 ho with rfl | ho
    · exact hn
    · exact h.buildable other ho
  · rw [List.mem_singleton.1 ho]
    exact hd
  · exact (hi other).2 (.inl (List.mem_singleton.1 ho))
  · exact (hi other).2 (.inr (h.kept other ho))

/-- From every definition that is not free any more, a path of inheritance leads
to the type at hand. -/
structure Leads (s : Schema) (free : List (String × ObjectDefinition))
    (name : String) : Prop where
  subset : free ⊆ s.objectDefinitions
  path : ∀ x ∈ s.objectDefinitions, x ∉ free → TransGen s.Extends x.2.name name

theorem Leads.cycle {free : List (String × ObjectDefinition)} {name : String}
    (h : Leads s free name) (hd : s.Declares name .object)
    (hn : free.find? (·.2.name = name) = none) :
    TransGen s.Extends name name := by
  obtain ⟨language, d, hm, rfl⟩ := Schema.declares_object_iff.1 hd
  refine h.path _ hm fun hfree => ?_
  have := List.find?_eq_none.1 hn _ hfree
  simp at this

/-- A step up takes the definition it starts from away. -/
theorem Leads.below {free : List (String × ObjectDefinition)}
    {language : String} {d : ObjectDefinition} (h : Leads s free d.name)
    (hd : (language, d) ∈ s.objectDefinitions) {supertype : String}
    (hs : supertype ∈ d.supertypes) :
    Leads s (free.eraseP (·.2.name = d.name)) supertype where
  subset _ hx := h.subset (List.mem_of_mem_eraseP hx)
  path x hx hfree := by
    have he : s.Extends d.name supertype := .intro hd hs
    by_cases hn : x.2.name = d.name
    · rw [hn]
      exact .single he
    · rw [List.mem_eraseP_of_neg (by simpa using hn)] at hfree
      exact (h.path x hx hfree).tail he

/-- A supertype is built if it is an object type, and else it is a defect. -/
theorem supertype_verdict {language : String} {d : ObjectDefinition}
    (hdef : (language, d) ∈ s.objectDefinitions) {supertype : String}
    (hs : supertype ∈ d.supertypes) {built built₁ : NameMap ObjectType}
    {done : List String} (hb : Builds s built done built₁)
    {build : Except CatalogError (ObjectType × NameMap ObjectType)}
    (hbuild : s.Declares supertype .object →
      Verdict (fun r => Builds s built₁ [supertype] r.2) (CatalogError.Present s)
        build)
    (inherited : Inheritance) :
    Verdict (fun r : Inheritance × NameMap ObjectType =>
        Builds s built (done ++ [supertype]) r.2)
      (CatalogError.Present s)
      (if s.objectDefinitions.any (·.2.name = supertype) then do
        let (t, built) ← build
        return (Inheritance.inherit inherited t, built)
      else .error (.unknownSupertype d.name supertype)) := by
  have hany : (s.objectDefinitions.any (·.2.name = supertype)) = true ↔
      s.Declares supertype .object := by
    rw [Schema.declares_object_iff, List.any_eq_true]
    simp
  split
  · rename_i hd
    exact (hbuild (hany.1 hd)).bind fun r hr => hb.append hr
  · rename_i hd
    exact ⟨.intro hdef hs, fun hd' => hd (hany.2 hd')⟩

/-- A type is built once its supertypes are. -/
theorem type_verdict (h : c.Of s) {language : String} {d : ObjectDefinition}
    (hdef : (language, d) ∈ s.objectDefinitions)
    {built built₁ : NameMap ObjectType}
    (hb : Builds s built d.supertypes built₁) (inherited : Inheritance) :
    Verdict (fun r : ObjectType × NameMap ObjectType =>
        Builds s built [d.name] r.2)
      (CatalogError.Present s)
      (do
        let t ← c.complete language d inherited
        return (t, built₁.insert d.name t)) := by
  apply (complete_verdict h hdef hb.declared inherited).bind
  intro type hvalid
  have hn := h.typeNames_nodup
  refine hb.insert ⟨fun _ d' hd' hn' => ?_, ?_⟩ ?_ type
  · cases Schema.definition_eq hn hdef hd' hn'
    exact hvalid
  · exact Schema.ends_of_supertypes hn hdef fun other ho =>
      (hb.buildable other (hb.added other ho)).ends
  · exact Schema.declares_object_iff.2 ⟨_, d, hdef, rfl⟩

/-- A type is built after its supertypes, and a supertype that is met on the
path to itself is a defect. -/
theorem objectType_verdict (h : c.Of s)
    {free : List (String × ObjectDefinition)} {built : NameMap ObjectType}
    {name : String} (hp : Leads s free name) (hd : s.Declares name .object)
    (hb : ∀ name, built.contains name = true → s.Buildable name) :
    Verdict (fun r => Builds s built [name] r.2) (CatalogError.Present s)
      (c.objectType s.objectDefinitions free built name) := by
  -- every step up takes a definition away, so less and less are free
  induction hn : free.length using Nat.strongRecOn
    generalizing free built name with
  | ind n ih =>
    subst hn
    unfold objectType
    split
    · rename_i t ht
      have hm : built.contains name = true := by
        rw [NameMap.contains, ht]
        rfl
      refine ⟨hb, fun other ho => ?_, fun other ho => ?_, fun _ ho => ho⟩
      · rw [List.mem_singleton.1 ho]
        exact hd
      · rw [List.mem_singleton.1 ho]
        exact hm
    · split
      · rename_i hfind
        exact hp.cycle hd hfind
      · rename_i language d hfind
        obtain ⟨hm, rfl, hl⟩ := of_find?_free hfind
        have hdef := hp.subset hm
        refine Verdict.bind (P := fun r : Inheritance × NameMap ObjectType =>
          Builds s built d.supertypes r.2) ?_
          fun r hr => type_verdict h hdef hr r.1
        refine Verdict.foldlM
          (P := fun done (r : Inheritance × NameMap ObjectType) =>
            Builds s built done r.2) ?_ (.nil hb)
        intro done supertype rest hsplit r hr
        have hs : supertype ∈ d.supertypes := by
          rw [hsplit]
          exact List.mem_append_right done List.mem_cons_self
        refine supertype_verdict hdef hs hr (fun hd' => ?_) r.1
        exact ih _ hl (hp.below hdef hs) hd' hr.buildable rfl

theorem objectTypes_verdict (h : c.Of s) {names : List String}
    (hn : ∀ name ∈ names, s.Declares name .object) :
    Verdict (fun _ => ∀ name ∈ names, s.Buildable name)
      (CatalogError.Present s) (c.objectTypes s.objectDefinitions names) := by
  refine Verdict.mono (P := fun built => Builds s .empty names built) ?_
    fun built hb name hm => hb.buildable name (hb.added name hm)
  refine Verdict.foldlM (P := fun done built => Builds s .empty done built) ?_
    (.nil fun name hm => by cases hm)
  intro done name rest hsplit built hb
  have hp : Leads s s.objectDefinitions name :=
    ⟨List.Subset.refl _, fun x hx hx' => absurd hx hx'⟩
  refine Verdict.map (objectType_verdict h hp (hn name ?_) hb.buildable) ?_
  · rw [hsplit]
    exact List.mem_append_right done List.mem_cons_self
  · intro r hr
    exact hb.append hr

end Context

/-! ### Schemas -/

namespace Schema

variable {s : Schema}

theorem valid_of_checked {c : Context} (h : c.Of s)
    (hl : s.languageNames.Nodup)
    (hr : ∀ x ∈ s.recordDefinitions, ∀ slot ∈ x.2.slots, s.SlotValid slot)
    (ho : ∀ x ∈ s.objectDefinitions, s.Buildable x.2.name) : s.Valid where
  languages := hl
  types := h.typeNames_nodup
  slots owner slot hs := by
    cases hs with
    | record hd hm => exact hr _ hd slot hm
    | object hd hm => exact ((ho _ hd).valid _ _ hd rfl).slots slot hm
  features owner feature hf := by
    cases hf with
    | composition hd hm =>
      exact ((ho _ hd).valid _ _ hd rfl).compositions feature hm
    | reference hd hm =>
      exact ((ho _ hd).valid _ _ hd rfl).references feature hm
  supertypes type supertype he := by
    cases he with
    | intro hd hm => exact ((ho _ hd).valid _ _ hd rfl).supertypes supertype hm
  acyclic type hc := by
    obtain ⟨next, hn, -⟩ := Relation.TransGen.head'_iff.1 hc
    cases hn with
    | intro hd hm => exact not_cycle_of_acc (ho _ hd).ends hc

theorem catalog_verdict (s : Schema) :
    Verdict (fun _ => s.Valid) (CatalogError.Present s) s.catalog := by
  apply declarations_verdict.bind
  rintro d ⟨hl, hk⟩
  have hc : (⟨d.kinds, s.enumTypes⟩ : Context).Of s := ⟨hk, rfl⟩
  refine Verdict.bind (P := fun _ => ∀ x ∈ s.recordDefinitions,
    ∀ slot ∈ x.2.slots, s.SlotValid slot) ?_ ?_
  · exact Verdict.mapM fun x hx => Context.recordType_verdict hc hx
  intro records hr
  refine (Context.objectTypes_verdict hc fun name hm => ?_).bind ?_
  · exact hc.get?_eq_some_iff.1 (by simpa using (List.mem_filter.1 hm).2)
  intro objects ho
  refine valid_of_checked hc hl hr fun x hx => ho x.2.name ?_
  have hg := hc.get?_eq_some_iff.2 (declares_object_iff.2 ⟨x.1, x.2, hx, rfl⟩)
  refine List.mem_filter.2 ⟨?_, by simpa using hg⟩
  exact List.mem_map.2 ⟨_, NameMap.get?_eq_some_iff.1 hg, rfl⟩

/-- Every schema comes to an end: a valid one in its catalog, and one that is
not valid in a defect that it has. -/
theorem catalog_exact (s : Schema) :
    ((∃ c, s.catalog = .ok c) ↔ s.Valid) ∧
      ((∃ e, s.catalog = .error e) ↔ ¬ s.Valid) ∧
      ∀ e, s.catalog = .error e → e.Present s := by
  have h := catalog_verdict s
  have hp : ∀ e, s.catalog = .error e → e.Present s := fun e he => h.of_error he
  cases hc : s.catalog with
  | ok c =>
    have hv : s.Valid := h.of_ok hc
    exact ⟨⟨fun _ => hv, fun _ => ⟨c, rfl⟩⟩, ⟨nofun, fun hn => absurd hv hn⟩,
      nofun⟩
  | error e =>
    have hv : ¬ s.Valid := (hp e hc).not_valid
    refine ⟨⟨nofun, fun h => absurd h hv⟩, ⟨fun _ => hv, fun _ => ⟨e, rfl⟩⟩, ?_⟩
    intro e' he
    exact hp e' (hc.trans he)

/-- A cycle is told by a type that is on it, whatever leads to it from outside;
two ways to one supertype are none. -/
example :
    let type (name : String) (supertypes : List String) : ObjectDefinition :=
      ⟨name, false, true, supertypes, [], [], []⟩
    let schema (objects : List ObjectDefinition) : Schema :=
      ⟨[⟨"shapes", [], objects, [], [], []⟩]⟩
    let outcome (objects : List ObjectDefinition) : Option CatalogError :=
      match (schema objects).catalog with
      | .ok _ => none
      | .error e => some e
    outcome [type "c" ["a"], type "a" ["b"], type "b" ["a"]] =
        some (.inheritanceCycle "a") ∧
      outcome [type "d" ["b", "c"], type "b" ["a"], type "c" ["a"],
        type "a" []] = none := by
  decide +kernel

end Schema

end ModelText
