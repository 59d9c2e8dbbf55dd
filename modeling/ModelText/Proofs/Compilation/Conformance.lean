import Mathlib
import ModelText.Proofs.Compilation.Closure
import ModelText.Proofs.Metamodel.WellFormed

/-!
# Compiled graphs conform to the catalog

The session conforms to the catalog while units are built: its graph does, and
the links that wait are of features of the elements that refer. Every move of
building keeps it so, and making the links that wait keeps the graph so.
-/

namespace ModelText

/-- The graph is as the catalog demands, and the links that wait belong to
features of their elements. -/
structure Session.Conforms (s : Session) (c : Catalog) : Prop where
  graph : s.graph.Conforms c
  requests : ∀ r ∈ s.requests, ∃ type,
    s.graph.type? r.scope = some (.object type) ∧
      type.reference? r.reference.name = some r.reference

/-! ### Types of a well-formed catalog -/

namespace Catalog

variable {c : Catalog} (hc : c.WellFormed)

include hc

theorem WellFormed.hasObjects {type : StructuredType}
    (ha : c.metamodel.Admits type) : c.HasObjects type := by
  cases type with
  | object type =>
    obtain ⟨hn, name, languages, hv⟩ := ha
    have hl : c.lookup? name = some (.object type) :=
      (Option.filter_eq_some_iff.1 hv).1
    refine ⟨hn, ?_⟩
    have ht : type.name = name := hc.name hl
    rw [ht]
    exact hl
  | record type =>
    obtain ⟨name, hl⟩ := ha
    have ht : type.name = name := hc.name hl
    change c.lookup? type.name = _
    rw [ht]
    exact hl

theorem WellFormed.slot?_of_offers {type : StructuredType}
    (ht : c.HasObjects type) {slot : Slot} (hs : type.Offers slot) :
    type.slot? slot.name = some slot := by
  rcases hs with hs | ⟨element, rfl, hs⟩
  · exact hs
  · exact (find?_key_eq_some_iff (hc.nodup ht.2)).2 ⟨hs, rfl⟩

theorem WellFormed.slotSound {type : StructuredType}
    (ht : c.HasObjects type) {name : String} {slot : Slot}
    (hs : type.slot? name = some slot) : c.SlotSound slot := by
  have hm : slot ∈ type.slots := List.mem_of_find?_eq_some hs
  cases type with
  | object type => exact hc.slots ht.2 rfl slot hm
  | record type => exact hc.slots ht rfl slot hm

end Catalog

/-! ### Building -/

section

variable {c : Catalog} (hc : c.WellFormed)

theorem Graph.Conforms.hasObjects {g : Graph} (h : g.Conforms c)
    {id : ObjectId} {type : StructuredType} (ht : g.type? id = some type) :
    c.HasObjects type := by
  obtain ⟨o, ho, rfl⟩ := Option.map_eq_some_iff.1 ht
  exact (h id o ho).type

include hc

theorem Graph.Move.conforms {g h : Graph} (hm : g.Move c.metamodel h)
    (hg : g.Conforms c) : h.Conforms c := by
  cases hm with
  | create type isRoot ha => exact hg.instantiate (hc.hasObjects ha) isRoot
  | name hm => exact hg.setName hm
  | assign ht hs hf hm =>
    exact hg.setValue ht (hc.slot?_of_offers (hg.hasObjects ht) hs) hf hm
  | hold ht hf hm => exact hg.addChild ht hf hm

theorem Session.Moves.conforms {source : String} {s t : Session}
    (h : s.Moves c.metamodel source t) (hs : s.Conforms c) : t.Conforms c := by
  induction h with
  | refl => exact hs
  | tail _ hm ih =>
    cases hm with
    | graph hm =>
      refine ⟨hm.conforms hc ih.graph, fun r hr => ?_⟩
      obtain ⟨type, ht, hf⟩ := ih.requests r hr
      exact ⟨type, hm.type? ht, hf⟩
    | report => exact ⟨ih.graph, ih.requests⟩
    | defer r hr ht hf =>
      refine ⟨ih.graph, fun other ho => ?_⟩
      rcases List.mem_append.1 ho with ho | ho
      · exact ih.requests other ho
      · rw [List.mem_singleton.1 ho]
        exact ⟨_, ht, hf⟩

theorem Progress.conforms_addUnits {w : Workspace}
    (hw : w.metamodel = c.metamodel) (names : List String) {p : Progress}
    (hp : p.construction.HandedOut)
    (hs : p.construction.toSession.Conforms c) :
    (names.foldl (addUnit w) p).construction.toSession.Conforms c := by
  refine units_keep (P := fun s => s.Conforms c) (fun name s hs => ?_)
    names hp hs
  have hm := w.moves_unit name s
  rw [hw] at hm
  exact hm.conforms hc hs

end

/-! ### Links -/

theorem LinkRequest.apply_eq_ok {r : LinkRequest} {g h : Graph}
    (hr : r.apply g = .ok h) :
    ∃ target, g.resolve? r.scope r.path = some target ∧
      g.link r.reference r.scope target = .ok h := by
  unfold apply at hr
  split at hr
  · cases hr
  · rename_i target ht
    split at hr
    · rename_i found hl
      cases hr
      exact ⟨target, ht, hl⟩
    · cases hr

namespace Linking

variable {c : Catalog}

theorem conforms_foldl_add (requests : List LinkRequest) {l : Linking}
    (hg : l.graph.Conforms c)
    (hr : ∀ r ∈ requests, ∃ type,
      l.graph.type? r.scope = some (.object type) ∧
        type.reference? r.reference.name = some r.reference) :
    (requests.foldl add l).graph.Conforms c := by
  induction requests generalizing l with
  | nil => exact hg
  | cons r rest ih =>
    have hrest := fun other ho => hr other (List.mem_cons_of_mem r ho)
    obtain ⟨type, ht, hf⟩ := hr r List.mem_cons_self
    rw [List.foldl_cons]
    unfold add
    cases ha : r.apply l.graph with
    | error => exact ih hg hrest
    | ok h =>
      obtain ⟨target, -, hl⟩ := r.apply_eq_ok ha
      have hs : l.graph.TypesStay h := by
        rw [(Graph.link_eq_ok hl).2]
        refine Graph.typesStay_update ?_
        exact fun _ => rfl
      refine ih (hg.link ht hf hl) fun other ho => ?_
      obtain ⟨type, ht, hf⟩ := hrest other ho
      exact ⟨type, hs _ _ ht, hf⟩

end Linking

theorem Session.Conforms.link {c : Catalog} {s : Session}
    (h : s.Conforms c) : s.link.graph.Conforms c :=
  Linking.conforms_foldl_add s.requests h.graph h.requests

/-! ### Compilation -/

/-- What a slot shows is a value that fits it, or nothing. -/
theorem Graph.Conforms.value? {c : Catalog} (hc : c.WellFormed) {g : Graph}
    (h : g.Conforms c) {id : ObjectId} {name : String} {value : Value}
    (hv : g.value? id name = some value) :
    value = .null ∨ ∃ type slot, g.type? id = some type ∧
      type.slot? name = some slot ∧ g.Fits c.metamodel slot value := by
  unfold Graph.value? at hv
  obtain ⟨o, ho, hv⟩ := Option.bind_eq_some_iff.1 hv
  obtain ⟨slot, hs, hv⟩ := Option.bind_eq_some_iff.1 hv
  have hx : (o.values name).headD slot.default = value := Option.some.inj hv
  have ht : g.type? id = some o.type := type?_of_object? ho
  unfold Object.values at hx
  cases hg : o.slots.get? name with
  | none =>
    rw [hg] at hx
    rw [← hx]
    refine (hc.slotSound (h id o ho).type hs).default.imp_right fun hd => ?_
    exact ⟨o.type, slot, ht, hs, hd g⟩
  | some values =>
    obtain ⟨found, hfound, hf, -⟩ := (h id o ho).slots name values hg
    rw [hs] at hfound
    cases hfound
    rw [hg] at hx
    cases values with
    | nil =>
      rw [← hx]
      refine (hc.slotSound (h id o ho).type hs).default.imp_right fun hd => ?_
      exact ⟨o.type, slot, ht, hs, hd g⟩
    | cons first rest =>
      rw [← hx]
      exact .inr ⟨o.type, slot, ht, hs, hf first List.mem_cons_self⟩

/-- The graph of a compilation conforms to the catalog, whatever the units
contain. A slot without a value shows its default, which fits as well. -/
theorem compile_conforms {s : Schema} {c : Catalog} (hc : s.catalog = .ok c)
    (config : Config) (entries : List String) (sources : Sources)
    {r : Compilation}
    (hr : compile c.metamodel config entries sources = .ok r) :
    r.graph.Conforms c ∧
      ∀ id name value, r.graph.value? id name = some value →
        value = .null ∨ ∃ type slot, r.graph.type? id = some type ∧
          type.slot? name = some slot ∧ r.graph.Fits c.metamodel slot value := by
  have hw := Schema.wellFormed_catalog hc
  have hg : r.graph.Conforms c := by
    obtain ⟨layers, -, hl⟩ := config.compiles c.metamodel entries sources
    unfold compile at hr
    split at hr
    · cases hr
    · cases hr
      rw [hl]
      refine Session.Conforms.link (Progress.conforms_addUnits hw ?_ _
        Construction.handedOut_new ⟨Graph.conforms_empty c, fun r hr => ?_⟩)
      · rfl
      · cases hr
  exact ⟨hg, fun id name value hv => hg.value? hw hv⟩

theorem compile_conforms_main :
    let color : SlotDefinition := ⟨"color", "Color", false, false, none⟩
    let shape : ObjectDefinition :=
      ⟨"Shape", false, true, [], [color], [], []⟩
    let s : Schema := ⟨[⟨"shapes", [], [shape], [],
      [⟨"Color", ["red", "green"]⟩], []⟩]⟩
    let text := "language shapes\nshape a \x7b color: green \x7d"
    let sources := (NameMap.empty.insert "main" text).sources
    ∃ c r, s.catalog = .ok c ∧
      compile c.metamodel .default ["main"] sources = .ok r ∧
      r.graph.size = 1 ∧ r.graph.Conforms c := by
  intro color shape s text sources
  obtain ⟨c, hc, hs⟩ : ∃ c, s.catalog = .ok c ∧
      (compileUnits c.metamodel .default ["main"] sources).graph.size = 1 :=
    exists_ok_of_any (by decide +kernel)
  exact ⟨c, _, hc, rfl, hs,
    (compile_conforms hc .default ["main"] sources rfl).1⟩

end ModelText
