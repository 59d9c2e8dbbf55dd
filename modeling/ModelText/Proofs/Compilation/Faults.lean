import ModelText.Proofs.Compilation.Closure
import ModelText.Proofs.Construction.Faults
import ModelText.Proofs.Graph.Isomorphism

/-!
# Which problems a compilation can have

A problem of a compilation tells that the text of a unit has not the right form,
that a unit has no text, or of a fault that units and links can have. So the
faults that only a broken list of events or a broken metamodel could bring about
are never told, and of the faults that count as internal two kinds are left: a
name that is no slot, and a modifier that names a slot of an unsuitable type.
-/

namespace ModelText

variable {c : Catalog}

/-! ### Links -/

/-- The graph finds no fault in the number of an object: the element that refers
is there, and so is what a path leads to. -/
theorem LinkRequest.arises_of_apply {r : LinkRequest} {g : Graph}
    {type : StructuredType} (ht : g.type? r.scope = some type)
    {fault : Fault} (h : r.apply g = .error fault) : fault.Arises c := by
  unfold apply at h
  split at h
  · cases h
    exact id
  · next target hr =>
    obtain ⟨name, hn⟩ := Graph.name?_of_resolve? hr
    obtain ⟨found, hf, -⟩ := Option.bind_eq_some_iff.1 hn
    obtain ⟨object, ho, -⟩ := Option.map_eq_some_iff.1 ht
    simp only [Graph.link_eq, hf, ho] at h
    split at h
    · cases h
    · next e he =>
      cases h
      split at he
      · cases he
        exact id
      · split at he
        · cases he
          exact id
        · cases he

theorem Linking.told_foldl_add (requests : List LinkRequest) {l : Linking}
    (hr : ∀ r ∈ requests, ∃ type, l.graph.type? r.scope = some type) :
    Sink.Told c l.sink (requests.foldl add l).sink := by
  induction requests generalizing l with
  | nil => exact .refl c _
  | cons r rest ih =>
    obtain ⟨type, ht⟩ := hr r List.mem_cons_self
    have hrest := fun other ho => hr other (List.mem_cons_of_mem r ho)
    rw [List.foldl_cons]
    unfold add
    cases ha : r.apply l.graph with
    | error fault =>
      have hp : (r.problem fault).Arises c :=
        ⟨_, rfl, r.arises_of_apply ht ha⟩
      exact (Sink.Told.report hp).trans (ih hrest)
    | ok h =>
      obtain ⟨target, -, hl⟩ := r.apply_eq_ok ha
      have hs : l.graph.TypesStay h := by
        rw [(Graph.link_eq_ok hl).2]
        exact Graph.typesStay_update fun _ => rfl
      apply ih
      intro other ho
      obtain ⟨type, ht⟩ := hrest other ho
      exact ⟨type, hs _ _ ht⟩

theorem Session.Conforms.told_link {s : Session} (hs : s.Conforms c) :
    Sink.Told c s.sink s.link.sink := by
  apply Linking.told_foldl_add s.requests
  intro r hr
  obtain ⟨type, ht, -⟩ := hs.requests r hr
  exact ⟨_, ht⟩

/-! ### Compilations -/

theorem Workspace.told_share (hc : c.WellFormed) {w : Workspace}
    (hw : w.metamodel = c.metamodel) {name source : String} {p : Problem}
    (hp : p ∈ (w.share name).sink.problems source) :
    p.diagnostic.category = .syntaxError ∨
      p.diagnostic.category = .missingElement ∨ p.Arises c := by
  have hs : Session.empty.Conforms c :=
    ⟨Graph.conforms_empty c, fun r hr => by cases hr⟩
  cases hf : w.fetch name with
  | none =>
    rw [share_of_missing hf] at hp
    simp only [Session.report, Sink.problems_report] at hp
    split at hp
    · rcases List.mem_append.1 hp with hp | hp
      · cases hp
      · rw [List.mem_singleton.1 hp]
        exact .inr (.inl rfl)
    · cases hp
  | some text =>
    unfold share unit at hp
    rw [hf] at hp
    rcases Session.told_walkUnit hc (w.context name text) hw hs hp with
      hp | hp | hp
    · cases hp
    · exact .inl hp
    · exact .inr (.inr hp)

/-- What a compilation tells of its units. -/
theorem compile_tells {s : Schema} (hc : s.catalog = .ok c)
    (config : Config) (entries : List String) (sources : Sources)
    {r : Compilation}
    (hr : compile c.metamodel config entries sources = .ok r)
    {result : UnitResult} (hu : result ∈ r.results) {p : Problem}
    (hp : p ∈ result.problems) :
    p.diagnostic.category = .syntaxError ∨
      p.diagnostic.category = .missingElement ∨ p.Arises c := by
  have hw := Schema.wellFormed_catalog hc
  obtain ⟨names, -, -, hs, -, -, he⟩ := compile_builds hr
  rw [he] at hu
  obtain ⟨unit, -, rfl⟩ := List.mem_map.1 hu
  have hconforms := Progress.conforms_addUnits hw
    (w := config.workspace c.metamodel (c.metamodel.supply sources).fetch)
    rfl names (p := .start) Construction.handedOut_new
    ⟨Graph.conforms_empty c, fun r hr => by cases hr⟩
  rcases hconforms.told_link _ p hp with hp | hp
  · rw [hs.problems] at hp
    split at hp
    · exact Workspace.told_share hw rfl hp
    · cases hp
  · exact .inr (.inr hp)

namespace Fault

/-- Of the faults that count as internal, two kinds are left. -/
theorem Arises.internal {fault : Fault} (h : fault.Arises c)
    (hi : fault.category = .internal) :
    (∃ name type, fault = .unknownSlot name type ∧ c.HasObjects type ∧
        type.slot? name = none) ∨
      ∃ tag type slot, fault = .unsuitableModifier tag slot.type ∧
        c.HasObjects type ∧ type.slot? tag = some slot ∧
          ¬c.Switches slot := by
  cases fault with
  | unknownSlot name type => exact .inl ⟨name, type, rfl, h⟩
  | unsuitableModifier tag slotType =>
    obtain ⟨type, slot, ht, hs, rfl, hn⟩ := h
    exact .inr ⟨tag, type, slot, rfl, ht, hs, hn⟩
  | endWithoutStart | endWithoutBlock | slotOutside | featureOutside
  | untypedSlot => exact absurd trivial h.not_isBroken
  | refused error _ =>
    cases error with
    | alreadyHeld | unknownObject => exact absurd trivial h.not_isBroken
    | typeMismatch | alreadySet => cases hi
  | _ => cases hi

theorem IsBroken.category {fault : Fault} (h : fault.IsBroken) :
    fault.category = .elementAdmitsNoFeatures ∨
      fault.category = .internal := by
  cases fault with
  | noFeatures => exact .inl rfl
  | refused error _ =>
    cases error with
    | alreadyHeld | unknownObject => exact .inr rfl
    | typeMismatch | alreadySet => exact h.elim
  | endWithoutStart | endWithoutBlock | slotOutside | featureOutside
  | untypedSlot => exact .inr rfl
  | _ => exact h.elim

theorem head?_append {s t : String} {c : Char}
    (h : s.toList.head? = some c) : (s ++ t).toList.head? = some c := by
  rw [String.toList_append, List.head?_append, h]
  rfl

theorem Arises.head?_message {fault : Fault} (h : fault.Arises c)
    (hi : fault.category = .internal) :
    fault.message.toList.head? = some '`' ∨
      fault.message.toList.head? = some 'M' := by
  rcases h.internal hi with ⟨name, type, rfl, -⟩ | ⟨tag, type, slot, rfl, -⟩
  · left
    iterate 4 apply head?_append
    decide
  · right
    iterate 6 apply head?_append
    decide

/-- The message does not start as that of a fault that counts as internal and
that units can have. -/
theorem IsBroken.head?_message {fault : Fault} (h : fault.IsBroken)
    (hi : fault.category = .internal) :
    ∃ first, fault.message.toList.head? = some first ∧ first ≠ '`' ∧
      first ≠ 'M' := by
  cases fault with
  | endWithoutStart => exact ⟨'E', by decide⟩
  | endWithoutBlock => exact ⟨'B', by decide⟩
  | slotOutside => exact ⟨'S', by decide⟩
  | featureOutside =>
    exact ⟨'F', head?_append (head?_append (by decide)), by decide⟩
  | untypedSlot =>
    exact ⟨'S', head?_append (head?_append (head?_append (by decide))),
      by decide⟩
  | refused error attempt =>
    cases error with
    | alreadyHeld =>
      exact ⟨'o', head?_append (head?_append (by decide)), by decide⟩
    | unknownObject => exact ⟨'u', head?_append (by decide), by decide⟩
    | typeMismatch | alreadySet => exact h.elim
  | noFeatures => cases hi
  | _ => exact h.elim

theorem Arises.category_ne {fault : Fault} (h : fault.Arises c) :
    fault.category ≠ .elementAdmitsNoFeatures := by
  intro he
  cases fault with
  | noFeatures => exact h.not_isBroken trivial
  | refused error _ => cases error <;> cases he
  | _ => cases he

theorem Arises.diagnostic_ne {f broken : Spanned Fault}
    (h : f.value.Arises c) (hb : broken.value.IsBroken) :
    diagnostic f ≠ diagnostic broken := by
  intro he
  have hcategory : f.value.category = broken.value.category :=
    congrArg Diagnostic.category he
  have hmessage : f.value.message = broken.value.message :=
    congrArg Diagnostic.message he
  rcases hb.category with hi | hi
  · exact h.category_ne (hcategory.trans hi)
  · obtain ⟨first, hf, hq, hm⟩ := hb.head?_message hi
    rw [← hmessage] at hf
    rcases h.head?_message (hcategory.trans hi) with hx | hx
    · rw [hx] at hf
      exact hq (Option.some.inj hf).symm
    · rw [hx] at hf
      exact hm (Option.some.inj hf).symm

end Fault

/-- Of the faults that count as internal, a compilation over a checked metamodel
tells two kinds only: a name that should be a slot of a type and is none, and a
modifier that names a slot which is neither boolean nor enumerated. What a
broken list of events, a broken metamodel or a broken graph would bring about is
never told. -/
theorem compile_internal_faults {s : Schema} (hc : s.catalog = .ok c)
    (config : Config) (entries : List String) (sources : Sources)
    {r : Compilation}
    (hr : compile c.metamodel config entries sources = .ok r) {p : Problem}
    (hp : p ∈ r.problems) :
    p.diagnostic.category ≠ .elementAdmitsNoFeatures ∧
      (∀ f : Spanned Fault, f.value.IsBroken →
        p.diagnostic ≠ Fault.diagnostic f) ∧
      (p.diagnostic.category = .internal → ∃ f,
        p.diagnostic = Fault.diagnostic f ∧
          ((∃ name type, f.value = .unknownSlot name type ∧
              c.HasObjects type ∧ type.slot? name = none) ∨
            ∃ tag type slot, f.value = .unsuitableModifier tag slot.type ∧
              c.HasObjects type ∧ type.slot? tag = some slot ∧
                ¬c.Switches slot)) := by
  obtain ⟨result, hu, hp⟩ := List.mem_flatMap.1 hp
  have hb (h : p.diagnostic.category ≠ .elementAdmitsNoFeatures)
      (h' : p.diagnostic.category ≠ .internal) (f : Spanned Fault)
      (hb : f.value.IsBroken) : p.diagnostic ≠ Fault.diagnostic f := by
    intro he
    rw [he] at h h'
    rcases hb.category with hf | hf
    · exact h hf
    · exact h' hf
  rcases compile_tells hc config entries sources hr hu hp with
    h | h | ⟨f, hf, ha⟩
  · exact ⟨by simp [h], hb (by simp [h]) (by simp [h]), by simp [h]⟩
  · exact ⟨by simp [h], hb (by simp [h]) (by simp [h]), by simp [h]⟩
  · rw [hf]
    exact ⟨ha.category_ne, fun g hg => ha.diagnostic_ne hg,
      fun hi => ⟨f, rfl, ha.internal hi⟩⟩

theorem compile_internal_faults_main :
    let text := "language shapes\nshape a \x7b size = 2 \x7d"
    let sources := (NameMap.empty.insert "main" text).sources
    ∃ c r, Schema.shapes.catalog = .ok c ∧
      compile c.metamodel .default ["main"] sources = .ok r ∧
      ∃ p ∈ r.problems, p.diagnostic.category = .internal ∧
        p.diagnostic.category ≠ .elementAdmitsNoFeatures := by
  intro text sources
  obtain ⟨c, hc, p, hp, hi⟩ : ∃ c, Schema.shapes.catalog = .ok c ∧
      ∃ p ∈ (compileUnits c.metamodel .default ["main"] sources).problems,
        p.diagnostic.category = .internal :=
    exists_ok_of_any (by decide +kernel)
  have hf := compile_internal_faults hc .default ["main"] sources rfl hp
  exact ⟨c, _, hc, rfl, p, hp, hi, hf.1⟩

end ModelText
