import ModelText.Proofs.Compilation.Results
import ModelText.Proofs.Metamodel.Declarations

/-!
# Compilation closes the imports

A compilation builds the units asked for and all that they import, directly or
not, each of them once. It goes batch by batch: `w.following seen batch` are
the units that a batch imports and that were not seen yet, in the order in which
they are first mentioned. `Workspace.Layers` lists the batches until one has
nothing left to build, without a bound; the bound on the recursion of the
compiler is never met, because every further batch holds a unit that some text
imports.
-/

namespace ModelText

namespace Workspace

/-- The batch behind a batch. -/
def following (w : Workspace) (seen batch : List String) : List String :=
  (NameSet.ofList (batch.flatMap w.imports)).toList.filter (· ∉ seen)

/-- The batches from some batch on, until one is empty. -/
inductive Layers (w : Workspace) :
    List String → List String → List (List String) → Prop
  | done (seen : List String) : Layers w seen [] []
  | batch {seen batch : List String} {layers : List (List String)}
      (hb : batch ≠ [])
      (h : Layers w (seen ++ batch) (w.following (seen ++ batch) batch)
        layers) :
      Layers w seen batch (batch :: layers)

/-- The units that are asked for, and those that they import. -/
inductive Reaches (w : Workspace) (entries : List String) : String → Prop
  | entry {name : String} (h : name ∈ entries) : Reaches w entries name
  | imported {name other : String} (h : Reaches w entries name)
      (hi : other ∈ w.imports name) : Reaches w entries other

variable {w : Workspace} {seen batch : List String}
  {layers : List (List String)}

theorem mem_following {name : String} :
    name ∈ w.following seen batch ↔
      (∃ unit ∈ batch, name ∈ w.imports unit) ∧ name ∉ seen := by
  unfold following
  rw [List.mem_filter, NameSet.mem_toList, NameSet.mem_ofList,
    List.mem_flatMap]
  simp

theorem nodup_following : (w.following seen batch).Nodup :=
  (NameSet.nodup _).filter _

theorem following_subset {all : List String}
    (ha : ∀ name ∈ all, w.imports name ⊆ all) (hb : batch ⊆ all) :
    w.following seen batch ⊆ all := by
  intro name hn
  obtain ⟨⟨unit, hu, hi⟩, -⟩ := mem_following.1 hn
  exact ha unit (hb hu) hi

namespace Layers

/-- A batch, if the one behind it is known. -/
theorem next {after : List String} (hb : batch ≠ [])
    (hn : w.following (seen ++ batch) batch = after)
    (h : w.Layers (seen ++ batch) after layers) :
    w.Layers seen batch (batch :: layers) := by
  subst hn
  exact .batch hb h

theorem batch_subset (h : w.Layers seen batch layers) :
    batch ⊆ layers.flatten := by
  cases h with
  | done => exact List.Subset.refl []
  | batch hb h => exact List.subset_append_left _ _

theorem nodup (h : w.Layers seen batch layers)
    (hd : (seen ++ batch).Nodup) : (seen ++ layers.flatten).Nodup := by
  induction h with
  | done => exact hd
  | batch hb h ih =>
    rw [List.flatten_cons, ← List.append_assoc]
    refine ih (List.nodup_append.2 ⟨hd, nodup_following, ?_⟩)
    rintro name hs other hf rfl
    exact (mem_following.1 hf).2 hs

theorem reaches {entries : List String} (h : w.Layers seen batch layers)
    (hb : ∀ name ∈ batch, w.Reaches entries name) {name : String}
    (hn : name ∈ layers.flatten) : w.Reaches entries name := by
  induction h with
  | done => cases hn
  | batch _ h ih =>
    rcases List.mem_append.1 hn with hn | hn
    · exact hb name hn
    · refine ih (fun other ho => ?_) hn
      obtain ⟨⟨unit, hu, hi⟩, -⟩ := mem_following.1 ho
      exact .imported (hb unit hu) hi

/-- There is only one way to go on. -/
theorem unique (h : w.Layers seen batch layers) {layers' : List (List String)}
    (h' : w.Layers seen batch layers') : layers = layers' := by
  induction h generalizing layers' with
  | done =>
    cases h' with
    | done => rfl
    | batch hb => exact absurd rfl hb
  | batch hb _ ih =>
    cases h' with
    | done => exact absurd rfl hb
    | batch _ h' => exact congrArg (_ :: ·) (ih h')

/-- The batches are the same wherever units import the same. -/
theorem of_imports (h : w.Layers seen batch layers) {w' : Workspace}
    (hi : w'.imports = w.imports) : w'.Layers seen batch layers := by
  induction h with
  | done seen => exact .done seen
  | batch hb _ ih =>
    refine .batch hb ?_
    unfold following at ih ⊢
    rw [hi]
    exact ih

/-- What the units seen so far import is in the current batch at the latest. -/
theorem closed (h : w.Layers seen batch layers)
    (hs : ∀ name ∈ seen, ∀ other ∈ w.imports name, other ∈ seen ++ batch)
    {name : String} (hn : name ∈ seen ++ layers.flatten) {other : String}
    (ho : other ∈ w.imports name) : other ∈ seen ++ layers.flatten := by
  induction h with
  | done seen =>
    rw [List.flatten_nil, List.append_nil] at hn
    exact hs name hn other ho
  | @batch seen batch layers _ h ih =>
    rw [List.flatten_cons, ← List.append_assoc] at hn ⊢
    refine ih (fun unit hu found hi => ?_) hn
    by_cases hm : found ∈ seen ++ batch
    · exact List.mem_append_left _ hm
    · refine List.mem_append_right _ (mem_following.2 ⟨?_, hm⟩)
      rcases List.mem_append.1 hu with hu | hu
      · exact absurd (hs unit hu found hi) hm
      · exact ⟨unit, hu, hi⟩

/-- The batches hold the least set of units that contains those asked for and
all that its members import. -/
theorem mem_iff_reaches {entries : List String}
    (h : w.Layers [] entries layers) (name : String) :
    name ∈ layers.flatten ↔ w.Reaches entries name := by
  refine ⟨fun hn => h.reaches (fun _ he => .entry he) hn, fun hr => ?_⟩
  induction hr with
  | entry he => exact h.batch_subset he
  | imported _ hi ih =>
    exact h.closed (fun _ hs => absurd hs List.not_mem_nil) ih hi

end Layers

/-! ### The bound of the recursion -/

/-- A text imports no more than its items say. -/
theorem imports_subset {name text : String} (h : w.fetch name = some text) :
    w.imports name ⊆ importsOf text := by
  intro other ho
  have hw : w.imports name = (w.context name text).imports := by
    unfold imports
    rw [h]
  have hx : (w.context name text).unit.text = text := rfl
  rw [hw] at ho
  unfold BuildContext.imports at ho
  rw [hx] at ho
  unfold importsOf Event.ofSource
  cases ht : SourceTree.ofSource text with
  | error diagnostics =>
    rw [ht] at ho
    cases ho
  | ok tree =>
    rw [ht] at ho
    rw [NameSet.mem_toList, NameSet.mem_ofList, List.mem_filterMap] at ho
    obtain ⟨item, hc, hi⟩ := ho
    have hm := (Walk.completed_prefix _ tree.items _).subset hc
    cases item with
    | importUnit unit =>
      cases hi
      refine List.mem_filterMap.2 ⟨⟨.importUnit unit.value, unit.span⟩, ?_, rfl⟩
      exact List.mem_flatMap.2 ⟨_, hm, List.mem_cons_self⟩
    | language => cases hi
    | declaration => cases hi

end Workspace

namespace Progress

/-- The same units were built, whatever was discovered last. -/
structure Same (p q : Progress) : Prop where
  construction : p.construction = q.construction
  built : p.built = q.built

theorem Same.addUnit {p q : Progress} (h : Same p q) (w : Workspace)
    (name : String) : Same (p.addUnit w name) (q.addUnit w name) := by
  unfold Progress.addUnit
  rw [h.construction, h.built]
  split <;> exact ⟨rfl, rfl⟩

theorem Same.addUnits {p q : Progress} (h : Same p q) (w : Workspace)
    (names : List String) :
    Same (names.foldl (Progress.addUnit w) p)
      (names.foldl (Progress.addUnit w) q) := by
  induction names generalizing p q with
  | nil => exact h
  | cons name rest ih => exact ih (h.addUnit w name)

theorem Same.trans {p q r : Progress} (h : Same p q) (h' : Same q r) :
    Same p r :=
  ⟨h.construction.trans h'.construction, h.built.trans h'.built⟩

theorem Same.finish {p q : Progress} (h : Same p q) (config : Config) :
    p.finish config = q.finish config := by
  unfold Progress.finish
  rw [h.construction, h.built]

theorem Same.sound {p q : Progress} (h : Same p q) {w : Workspace}
    (hq : Sound w q) : Sound w p := by
  obtain ⟨construction, built, discovered⟩ := p
  obtain ⟨rfl, rfl⟩ := h
  exact ⟨hq.handedOut, hq.problems, hq.sources, hq.requests, hq.missing⟩

theorem same_addBatch (w : Workspace) (p : Progress) (names : List String) :
    Same (p.addBatch w names) (names.foldl (addUnit w) p) := by
  have h : Same { p with discovered := .empty } p := ⟨rfl, rfl⟩
  exact h.addUnits w names

theorem handedOut_addUnits {w : Workspace} {p : Progress}
    (h : p.construction.HandedOut) (names : List String) :
    (names.foldl (addUnit w) p).construction.HandedOut ∧
      (names.foldl (addUnit w) p).discovered =
        p.discovered.insertAll (names.flatMap w.imports) := by
  induction names generalizing p with
  | nil => exact ⟨h, rfl⟩
  | cons name rest ih =>
    have ha := addUnit_added w h name
    obtain ⟨ho, hd⟩ := ih ha.handedOut
    refine ⟨ho, ?_⟩
    rw [List.foldl_cons, hd, ha.discovered]
    simp [NameSet.insertAll]

theorem next_addBatch {w : Workspace} {p : Progress}
    (h : p.construction.HandedOut) (names : List String) :
    (p.addBatch w names).next =
      w.following (p.processed ++ names) names := by
  have hp : ({ p with discovered := .empty } : Progress).construction.HandedOut :=
    h
  have hd := (handedOut_addUnits (w := w) hp names).2
  unfold next Workspace.following
  rw [processed_addBatch]
  exact congrArg (fun set : NameSet =>
    set.toList.filter (· ∉ p.processed ++ names)) hd

theorem filter_length_lt {all seen batch : List String} {name : String}
    (ha : name ∈ all) (hs : name ∉ seen) (hb : name ∈ batch) :
    (all.filter (· ∉ seen ++ batch)).length <
      (all.filter (· ∉ seen)).length := by
  have hf : all.filter (· ∉ seen ++ batch) =
      (all.filter (· ∉ seen)).filter (· ∉ batch) := by
    rw [List.filter_filter]
    refine List.filter_congr fun other _ => ?_
    simp [Bool.and_comm]
  rw [hf, List.length_filter_lt_length_iff_exists]
  exact ⟨name, List.mem_filter.2 ⟨ha, by simpa using hs⟩, by simpa using hb⟩

/-- A batch with a unit in it leaves less to import. -/
theorem remaining_lt {w : Workspace} {all seen batch : List String}
    (ha : ∀ name ∈ all, w.imports name ⊆ all) (hb : batch ⊆ all)
    (hne : w.following seen batch ≠ []) :
    (all.filter (· ∉ seen ++ w.following seen batch)).length <
      (all.filter (· ∉ seen)).length := by
  obtain ⟨other, ho⟩ := List.exists_mem_of_ne_nil _ hne
  exact filter_length_lt (Workspace.following_subset ha hb ho)
    (Workspace.mem_following.1 ho).2 ho

/-- Nothing comes behind a batch that imports nothing new. -/
theorem close_last {w : Workspace} {p : Progress}
    (hp : p.construction.HandedOut) {names : List String} (hne : names ≠ [])
    (hn : w.following (p.processed ++ names) names = []) (further : Nat) :
    ∃ layers, w.Layers p.processed names layers ∧
      Same (close w further names p) (layers.flatten.foldl (addUnit w) p) := by
  refine ⟨[names], .next hne hn (.done _), ?_⟩
  have hc : close w further names p = p.addBatch w names := by
    unfold close
    split
    · exact absurd rfl hne
    · rfl
    · dsimp only
      rw [next_addBatch hp, hn, close_nil]
  rw [hc, List.flatten_singleton]
  exact same_addBatch w p names

/-- With as many further batches as there are units left to import, the
recursion ends because nothing is left to build. -/
theorem close_layers {w : Workspace} {all : List String}
    (ha : ∀ name ∈ all, w.imports name ⊆ all) (further : Nat)
    {names : List String} (hm : names ⊆ all) {p : Progress}
    (hp : p.construction.HandedOut)
    (hf : (all.filter (· ∉ p.processed ++ names)).length ≤ further) :
    ∃ layers, w.Layers p.processed names layers ∧
      Same (close w further names p) (layers.flatten.foldl (addUnit w) p) := by
  induction further generalizing names p with
  | zero =>
    cases names with
    | nil => exact ⟨[], .done _, ⟨rfl, rfl⟩⟩
    | cons name rest =>
      refine close_last hp (List.cons_ne_nil _ _) ?_ 0
      by_contra hn
      have hlt := Nat.lt_of_lt_of_le (remaining_lt ha hm hn) hf
      exact Nat.not_lt_zero _ hlt
  | succ further ih =>
    cases names with
    | nil => exact ⟨[], .done _, ⟨rfl, rfl⟩⟩
    | cons name rest =>
      by_cases hn :
        w.following (p.processed ++ name :: rest) (name :: rest) = []
      · exact close_last hp (List.cons_ne_nil _ _) hn _
      have hx := next_addBatch (w := w) hp (name :: rest)
      have hs := p.processed_addBatch w (name :: rest)
      have hb := same_addBatch w p (name :: rest)
      have hh : (p.addBatch w (name :: rest)).construction.HandedOut := by
        rw [hb.construction]
        exact (handedOut_addUnits hp _).1
      -- A further batch holds a unit that was still left to import.
      have hlt := Nat.lt_of_lt_of_le (remaining_lt ha hm hn) hf
      rw [← hs] at hlt
      obtain ⟨layers, hl, hq⟩ := ih (Workspace.following_subset ha hm) hh
        (Nat.le_of_lt_succ hlt)
      refine ⟨(name :: rest) :: layers, ?_, ?_⟩
      · rw [hs] at hl
        exact .batch (List.cons_ne_nil _ _) hl
      · rw [hs, ← hx] at hq
        rw [List.flatten_cons, List.foldl_append]
        exact hq.trans (hb.addUnits w _)

end Progress

/-! ### Compilation -/

theorem Metamodel.fetch_supply (m : Metamodel) (sources : Sources)
    (name : String) :
    (m.supply sources).fetch name =
      (m.builtIns.get? name).orElse fun _ => sources.fetch name := rfl

/-- Units of a finite set that is closed under imports are built without meeting
a bound that is large enough. -/
theorem Workspace.build_layers {w : Workspace} {all : List String}
    (ha : ∀ name ∈ all, w.imports name ⊆ all) {names : List String}
    (hn : names ⊆ all) {further : Nat}
    (hf : (all.filter (· ∉ names)).length ≤ further) :
    ∃ layers, w.Layers [] names layers ∧
      Progress.Same (w.build further names)
        (layers.flatten.foldl (Progress.addUnit w) .start) :=
  Progress.close_layers (p := .start) ha further hn
    Construction.handedOut_new hf

/-- There are no more further batches than imports in all texts. -/
theorem Config.build_layers (config : Config) (m : Metamodel)
    (entries : List String) (sources : Sources) {further : Nat}
    (hle : (m.supply sources).importCount ≤ further) :
    let w := config.workspace m (m.supply sources).fetch
    let first := config.entries m entries
    ∃ layers, w.Layers [] first layers ∧
      Progress.Same (w.build further first)
        (layers.flatten.foldl (Progress.addUnit w) .start) := by
  intro w first
  have ha : ∀ name, w.imports name ⊆ (m.supply sources).texts.flatMap importsOf := by
    intro name other ho
    cases hf : w.fetch name with
    | none =>
      unfold Workspace.imports at ho
      rw [hf] at ho
      cases ho
    | some text =>
      exact List.mem_flatMap.2 ⟨text, (m.supply sources).mem_texts hf,
        w.imports_subset hf ho⟩
  have hf : ((first ++ (m.supply sources).texts.flatMap importsOf).filter
      (· ∉ first)).length ≤ further := by
    have hn : first.filter (· ∉ first) = [] :=
      List.filter_eq_nil_iff.2 fun name hm => by simpa using hm
    rw [List.filter_append, hn]
    exact Nat.le_trans (List.length_filter_le _ _) hle
  exact w.build_layers
    (fun name _ => List.subset_append_of_subset_right first (ha name))
    (List.subset_append_left _ _) hf

/-- The units of a workspace whose texts are supplied are closed under imports,
and building them leads to their results. -/
theorem Config.compiles (config : Config) (m : Metamodel)
    (entries : List String) (sources : Sources) :
    let w := config.workspace m (m.supply sources).fetch
    let first := config.entries m entries
    ∃ layers, w.Layers [] first layers ∧
      compileUnits m config entries sources =
        (layers.flatten.foldl (Progress.addUnit w) .start).finish config := by
  intro w first
  obtain ⟨layers, hl, hs⟩ :=
    config.build_layers m entries sources (Nat.le_refl _)
  exact ⟨layers, hl, hs.finish config⟩

/-- A compilation has results of the units in its batches, each of them once.
They are those of building one unit behind the other. -/
theorem compile_layers {m : Metamodel} {config : Config}
    {entries : List String} {sources : Sources} {r : Compilation}
    (hr : compile m config entries sources = .ok r) :
    let w := config.workspace m (m.supply sources).fetch
    ∃ layers, w.Layers [] (config.entries m entries) layers ∧
      layers.flatten.Nodup ∧
      let p := layers.flatten.foldl (Progress.addUnit w) .start
      Progress.Sound w p ∧ p.processed = layers.flatten ∧
        r.graph = p.construction.toSession.link.graph ∧
        r.results = p.built.map fun unit => config.result unit.1 unit.2
          (p.construction.toSession.link.sink.problems unit.1) := by
  intro w
  obtain ⟨layers, hl, he⟩ := config.compiles m entries sources
  have hd : layers.flatten.Nodup := by
    have hn := hl.nodup (by rw [List.nil_append]; exact NameSet.nodup _)
    rw [List.nil_append] at hn
    exact hn
  have hs := (Progress.sound_start w).addUnits hd
  have hp : (layers.flatten.foldl (Progress.addUnit w) .start).processed =
      layers.flatten := Progress.processed_addBatch w .start layers.flatten
  have hf := hs.finish_eq (by rw [hp]; exact hd) config
  refine ⟨layers, hl, hd, hs, hp, ?_⟩
  unfold compile at hr
  split at hr
  · cases hr
  · cases hr
    rw [he, hf]
    exact ⟨rfl, rfl⟩

/-- The units in the batches are those that are reached. -/
theorem compile_builds {m : Metamodel} {config : Config}
    {entries : List String} {sources : Sources} {r : Compilation}
    (hr : compile m config entries sources = .ok r) :
    let w := config.workspace m (m.supply sources).fetch
    ∃ names : List String, names.Nodup ∧
      (∀ name, name ∈ names ↔ w.Reaches (config.entries m entries) name) ∧
      let p := names.foldl (Progress.addUnit w) .start
      Progress.Sound w p ∧ p.processed = names ∧
        r.graph = p.construction.toSession.link.graph ∧
        r.results = p.built.map fun unit => config.result unit.1 unit.2
          (p.construction.toSession.link.sink.problems unit.1) := by
  obtain ⟨layers, hl, hd, hp⟩ := compile_layers hr
  exact ⟨layers.flatten, hd, hl.mem_iff_reaches, hp⟩

/-- A compilation builds the units asked for and all that they import, each of
them once, batch by batch. Its results are those of building the units in this
order from the start. What the units import is found as if each was built on its
own; texts that come with the languages go first; and a unit without a text has
a fatal problem instead of roots. -/
theorem compile_closes_imports (c : Catalog) (config : Config)
    (entries : List String) (sources : Sources)
    (h : entries ≠ [] ∨ config.implicitBuiltIns = true) :
    let w := config.workspace c.metamodel (c.metamodel.supply sources).fetch
    let builtIns := if config.implicitBuiltIns then c.builtIns.names else []
    let first := (NameSet.ofList (builtIns ++ entries)).toList
    ∃ r layers, compile c.metamodel config entries sources = .ok r ∧
      w.Layers [] first layers ∧
      r.results.map (·.source) = layers.flatten ∧
      layers.flatten.Nodup ∧
      (∀ name, name ∈ layers.flatten ↔ w.Reaches first name) ∧
      r = (layers.flatten.foldl (Progress.addUnit w) .start).finish config ∧
      (∀ before name after text, layers.flatten = before ++ name :: after →
        w.fetch name = some text →
        ((before.foldl (Progress.addUnit w) .start).construction.build
          (w.context name text)).1.imports = w.imports name) ∧
      (∀ name, w.fetch name =
        (c.builtIns.get? name).orElse fun _ => sources.fetch name) ∧
      ∀ name ∈ layers.flatten, w.fetch name = none → ∃ problem,
        r.results.filter (·.source = name) = [⟨name, [], [problem]⟩] ∧
          problem.severity = .fatal ∧
          problem.diagnostic.category = .missingElement := by
  intro w builtIns first
  obtain ⟨layers, hl, hr⟩ := config.compiles c.metamodel entries sources
  have hd : layers.flatten.Nodup := by
    have hn := hl.nodup (by rw [List.nil_append]; exact NameSet.nodup _)
    rw [List.nil_append] at hn
    exact hn
  have hp : (layers.flatten.foldl (Progress.addUnit w) .start).processed =
      layers.flatten := Progress.processed_addBatch w .start layers.flatten
  have hs : Progress.Sound w
      (layers.flatten.foldl (Progress.addUnit w) .start) :=
    (Progress.sound_start w).addUnits hd
  have hd' := hd
  rw [← hp] at hd'
  refine ⟨_, layers, ?_, hl, ?_, hd, hl.mem_iff_reaches, rfl, ?_, ?_, ?_⟩
  · have hc : (entries.isEmpty && !config.implicitBuiltIns) = false := by
      rcases h with h | h
      · simp [h]
      · simp [h]
    unfold compile
    rw [hc, hr]
    rfl
  · exact (hs.sources_finish hd' config).trans hp
  · intro before name after text _ hf
    have ho := (Progress.handedOut_addUnits (w := w)
      (p := .start) Construction.handedOut_new before).1
    rw [(ho.build_eq (w.context name text)).1, Session.imports_walkUnit]
    unfold Workspace.imports
    rw [hf]
  · exact c.metamodel.fetch_supply sources
  · intro name hn hf
    rw [← hp] at hn
    exact ⟨_, hs.result_of_missing hd' config hn hf, rfl, rfl⟩

/-- The unit that comes with the language is built first, and from its own text.
The unit behind it is asked for twice, and imports one that imports it again, and
also a unit without a text. An element of an unknown type ends this one, so what
it would import behind that element is not looked for. -/
theorem compile_closes_imports_main :
    let kit := "language shapes shape star"
    let part := "language shapes import main import kit import lost " ++
      "circle b import late"
    let schema : Schema := .shapesWith [("kit", kit)]
    let sources := (((NameMap.empty.insert "main"
      "language shapes import part import part shape a").insert "part"
        part).insert "kit" "language shapes").sources
    let config : Config := { Config.default with implicitBuiltIns := true }
    config.implicitBuiltIns = true ∧
    ∃ c r problem, schema.catalog = .ok c ∧
      let w := config.workspace c.metamodel
        (c.metamodel.supply sources).fetch
      compile c.metamodel config ["main", "main"] sources = .ok r ∧
      r.results.map (·.source) = ["kit", "main", "part", "lost"] ∧
      w.Layers [] ["kit", "main"] [["kit", "main"], ["part"], ["lost"]] ∧
      (∀ name, name ∈ ["kit", "main", "part", "lost"] ↔
        w.Reaches ["kit", "main"] name) ∧
      w.fetch "kit" = some kit ∧
      ((["kit", "main"].foldl (Progress.addUnit w) .start).construction.build
        (w.context "part" part)).1.imports = ["main", "kit", "lost"] ∧
      r.results.filter (·.source = "lost") = [⟨"lost", [], [problem]⟩] ∧
      problem.severity = .fatal ∧
      problem.diagnostic.category = .missingElement := by
  intro kit part schema sources config
  have hi : config.implicitBuiltIns = true := rfl
  obtain ⟨c, hc, hentries, hkit, hpart, himports, hlost, hfirst, hsecond,
      hthird⟩ : ∃ c, schema.catalog = .ok c ∧
      let w := config.workspace c.metamodel
        (c.metamodel.supply sources).fetch
      (NameSet.ofList (c.builtIns.names ++ ["main", "main"])).toList =
        ["kit", "main"] ∧
      c.builtIns.get? "kit" = some kit ∧
      w.fetch "part" = some part ∧
      w.imports "part" = ["main", "kit", "lost"] ∧
      w.fetch "lost" = none ∧
      w.following ["kit", "main"] ["kit", "main"] = ["part"] ∧
      w.following ["kit", "main", "part"] ["part"] = ["lost"] ∧
      w.following ["kit", "main", "part", "lost"] ["lost"] = [] :=
    exists_ok_of_any (by decide +kernel)
  obtain ⟨r, layers, hr, hl, hnames, -, hm, -, himported, hf, hmissing⟩ :=
    compile_closes_imports c config ["main", "main"] sources (.inr hi)
  have hlayers : (config.workspace c.metamodel
      (c.metamodel.supply sources).fetch).Layers [] ["kit", "main"]
        [["kit", "main"], ["part"], ["lost"]] :=
    .next (by decide) hfirst (.next (by decide) hsecond
      (.next (by decide) hthird (.done _)))
  rw [if_pos hi, hentries] at hl hm
  cases hl.unique hlayers
  obtain ⟨problem, hproblem, hfatal, hcategory⟩ :=
    hmissing "lost" (by decide) hlost
  refine ⟨hi, c, r, problem, hc, hr, hnames, hlayers, hm, ?_, ?_, hproblem,
    hfatal, hcategory⟩
  · rw [hf "kit", hkit]
    rfl
  · exact (himported ["kit", "main"] "part" ["lost"] part rfl hpart).trans
      himports

end ModelText
