import ModelText.Proofs.Construction.Headers
import ModelText.Proofs.Metamodel.WellFormed
import ModelText.Proofs.Token.Printing
import ModelText.Proofs.Tree.SourceOrder

/-!
# What is listed can be declared

A unit makes elements of the types that the catalog lists for its languages. The
word of a header stands for the type whose name is this word with a capital
letter at its start. So a listed object type that is not abstract is declared by
its own name, if this name can be written in a unit and does not begin with a
small letter; a header with any other word that does not is at fault and creates
nothing.

`UnitHeader` is a header where building a unit has come to it, whatever the unit
holds before and behind it. That there is one at all for each name is shown by
the unit that declares the languages and then writes the header.
-/

namespace ModelText

/-! ### Capital letters -/

namespace Text

open Token (IsName isNameStart)

/-- The word begins with a small letter. -/
def StartsSmall (word : String) : Prop :=
  ∃ c ∈ word.toList.head?, c.isLower = true

instance (word : String) : Decidable (StartsSmall word) :=
  decidable_of_iff (word.toList.head?.any Char.isLower = true)
    (Option.any_eq_true _ _)

theorem toNat_lt_of_isNameStart {c : Char} (h : isNameStart c = true) :
    c.toNat < 128 := by
  have hlast {last : Char} (hc : c.val ≤ last.val) (hl : last.toNat < 128) :
      c.toNat < 128 := Nat.lt_of_le_of_lt (UInt32.le_iff_toNat_le.1 hc) hl
  rcases Bool.or_eq_true_iff.1 h with h | h
  · rcases Bool.or_eq_true_iff.1 h with hu | hl
    · exact hlast (of_decide_eq_true hu).2 (by decide)
    · exact hlast (of_decide_eq_true (Bool.and_eq_true_iff.1 hl).2) (by decide)
  · obtain rfl := eq_of_beq h
    decide

/-- A property of the characters below a bound can be checked one by one. -/
theorem of_forall_lt {P : Char → Prop} {bound : Nat}
    (h : ∀ n < bound, P (Char.ofNat n)) {c : Char} (hc : c.toNat < bound) :
    P c := by
  have hp := h c.toNat hc
  rwa [Char.ofNat_toNat] at hp

/-- Of what names begin with, only small letters have others as capitals. -/
theorem capitals_eq_iff {c : Char} (h : isNameStart c = true) :
    capitals c = [c] ↔ c.isLower = false :=
  of_forall_lt (P := fun c => isNameStart c = true →
      (capitals c = [c] ↔ c.isLower = false))
    (by decide +kernel) (toNat_lt_of_isNameStart h) h

/-- Only a name that begins with a small letter is changed. -/
theorem capitalized_eq_iff {word : String} (h : IsName word) :
    capitalized word = word ↔ ¬StartsSmall word := by
  obtain ⟨c, hc, hstart⟩ := h.start
  obtain ⟨rest, hword⟩ := List.head?_eq_some_iff.1 hc
  have hsame : capitalized word = word ↔ capitals c ++ rest = [c] ++ rest := by
    rw [capitalized, hword, ← String.toList_inj, String.toList_ofList, hword]
    rfl
  rw [hsame, List.append_cancel_right_eq, capitals_eq_iff hstart, StartsSmall,
    hword]
  simp

end Text

/-! ### Types of which elements can be made -/

/-- Elements of the type can be made where the languages are declared. -/
structure Catalog.Instantiable (catalog : Catalog) (languages : List String)
    (type : ObjectType) : Prop where
  listed : .object type ∈ catalog.visibleTypes (.ofList languages)
  concrete : type.isAbstract = false

namespace Catalog

variable {catalog : Catalog} {languages : List String} {name : String}
  {type : ObjectType}

/-- What is listed is what is found under its name. -/
theorem WellFormed.mem_visibleTypes (h : catalog.WellFormed)
    {languages : NameSet} {type : TypeInfo} :
    type ∈ catalog.visibleTypes languages ↔
      catalog.visible? type.name languages = some type := by
  have hvalues : type ∈ catalog.types.values ↔
      catalog.lookup? type.name = some type := by
    constructor
    · intro hm
      obtain ⟨⟨name, found⟩, hentry, rfl⟩ := List.mem_map.1 hm
      have hl : catalog.lookup? name = some found :=
        NameMap.get?_eq_some_iff.2 hentry
      rwa [h.name hl]
    · intro hl
      exact List.mem_map.2 ⟨_, NameMap.get?_eq_some_iff.1 hl, rfl⟩
  rw [visibleTypes, List.mem_filter, hvalues, visible?,
    Option.filter_eq_some_iff]

/-- The type that a header asks for is one of which elements can be made. -/
theorem WellFormed.elementType_eq_ok (h : catalog.WellFormed) :
    catalog.metamodel.elementType (.ofList languages) name = .ok type ↔
      catalog.Instantiable languages type ∧ type.name = name := by
  have hvisible : catalog.visible? name (.ofList languages) =
        some (.object type) ↔
      .object type ∈ catalog.visibleTypes (.ofList languages) ∧
        type.name = name := by
    rw [h.mem_visibleTypes]
    constructor
    · intro hv
      have hn : type.name = name := h.name (Option.filter_eq_some_iff.1 hv).1
      refine ⟨?_, hn⟩
      rw [← hn] at hv
      exact hv
    · rintro ⟨hv, rfl⟩
      exact hv
  constructor
  · intro ht
    unfold Metamodel.elementType at ht
    split at ht
    · cases ht
    · next found hv =>
      split at ht
      · cases ht
      · next hc =>
        cases ht
        obtain ⟨hm, hn⟩ := hvisible.1 hv
        exact ⟨⟨hm, by simpa using hc⟩, hn⟩
    · cases ht
  · rintro ⟨⟨hm, hc⟩, hn⟩
    unfold Metamodel.elementType
    rw [show catalog.metamodel.visible? name _ = _ from hvisible.2 ⟨hm, hn⟩]
    simp [hc]

end Catalog

/-- A word that stands for no such type is at fault. -/
theorem Metamodel.category_of_elementType {m : Metamodel} {languages : NameSet}
    {name : String} {fault : Fault}
    (h : m.elementType languages name = .error fault) :
    fault.severity = .fatal ∧ (fault.category = .unknownElement ∨
      fault.category = .abstractElement) := by
  unfold elementType at h
  split at h
  · cases h
    exact ⟨rfl, .inl rfl⟩
  · split at h
    · cases h
      exact ⟨rfl, .inr rfl⟩
    · cases h
  · cases h
    exact ⟨rfl, .inl rfl⟩

/-! ### Headers of units -/

/-- A header with a word in the text of a unit, and building the unit up to it:
the unit has declared the languages, and no fatal fault has ended it. -/
structure UnitHeader (catalog : Catalog) (languages : List String)
    (word : String) where
  /-- The unit, and what it is built with. -/
  ctx : BuildContext
  metamodel : ctx.metamodel = catalog.metamodel
  /-- The place of the word. -/
  span : Span
  /-- The name that the header gives to its element. -/
  name : Option (Spanned String)
  /-- The place of the header. -/
  place : Span
  /-- The events before the header. -/
  before : Events
  /-- The events behind the header. -/
  after : Events
  source : Event.ofSource ctx.unit.text =
    .ok (before ++ ⟨.start ⟨word, span⟩ name, place⟩ :: after)
  languages : before.languages = languages
  /-- The state before the unit. -/
  start : Construction
  /-- The state before the header. -/
  here : Construction
  steps : (Build.steps ctx before).exec start.begin = (.ok (), here)

namespace UnitHeader

variable {catalog : Catalog} {languages : List String} {word : String}

/-- The event of the header. -/
def event (u : UnitHeader catalog languages word) : Spanned Event :=
  ⟨.start ⟨word, u.span⟩ u.name, u.place⟩

/-- What the header does: what comes of it, and the state behind it. -/
def result (u : UnitHeader catalog languages word) :
    Except (Spanned Fault) Unit × Construction :=
  (Build.step u.ctx u.event).exec u.here

/-- The header creates one object, which is of the type. -/
structure Creates (u : UnitHeader catalog languages word) (type : ObjectType) :
    Prop where
  types : u.result.2.graph.types = u.here.graph.types ++ [.object type]
  /-- Without modifiers there is no fault. -/
  ok : u.here.modifiers = [] → u.result.1 = .ok ()

/-- The header creates nothing: it is a fatal fault, which ends the unit. -/
structure Refused (u : UnitHeader catalog languages word) (fault : Fault) :
    Prop where
  result : u.result = (.error ⟨fault, u.span⟩, u.here)
  fatal : fault.severity = .fatal
  category : fault.category = .unknownElement ∨
    fault.category = .abstractElement
  ends : u.start.begin.run u.ctx (u.before ++ u.event :: u.after) =
    u.here.reportFault u.ctx.unit ⟨fault, u.span⟩

theorem languages_here (u : UnitHeader catalog languages word) :
    u.here.languages = .ofList languages := by
  rw [Build.languages_steps u.steps, u.languages]
  rfl

theorem isEmpty_languages_here (u : UnitHeader catalog languages word)
    (hl : languages ≠ []) : u.here.languages.isEmpty = false := by
  obtain ⟨language, rest, rfl⟩ := List.exists_cons_of_ne_nil hl
  have hm : language ∈ u.here.languages := by
    rw [u.languages_here, NameSet.mem_ofList]
    exact .head _
  rw [NameSet.isEmpty, List.isEmpty_eq_false_iff]
  exact List.ne_nil_of_mem hm

/-- The word is written as a name. -/
theorem isName (u : UnitHeader catalog languages word) : Token.IsName word := by
  obtain ⟨tokens, hs, hlaid⟩ := Event.laid_of_ofSource u.source
  have hm := hlaid.mem_of_start (List.mem_append_right _ (.head _))
  exact Token.isNamed_of_scan hs _ hm

theorem creates_of_elementType (u : UnitHeader catalog languages word)
    (hl : languages ≠ []) {type : ObjectType}
    (ht : catalog.metamodel.elementType (.ofList languages)
      (Text.capitalized word) = .ok type) : u.Creates type := by
  rw [← u.metamodel, ← u.languages_here] at ht
  obtain ⟨htypes, hok⟩ := Build.step_start_creates ⟨word, u.span⟩ u.name
    u.place (u.isEmpty_languages_here hl) ht
  exact ⟨htypes, hok⟩

theorem refused_of_elementType (u : UnitHeader catalog languages word)
    (hl : languages ≠ []) {fault : Fault}
    (ht : catalog.metamodel.elementType (.ofList languages)
      (Text.capitalized word) = .error fault) : u.Refused fault := by
  rw [← u.metamodel, ← u.languages_here] at ht
  have hstep : (Build.step u.ctx u.event).exec u.here =
      (.error ⟨fault, u.span⟩, u.here) :=
    Build.step_start_refused ⟨word, u.span⟩ u.name u.place
      (u.isEmpty_languages_here hl) ht
  obtain ⟨hfatal, hcategory⟩ := Metamodel.category_of_elementType ht
  refine ⟨hstep, hfatal, hcategory, ?_⟩
  have hrecover : (Build.recover u.ctx.unit (Build.step u.ctx u.event)).exec
      u.here = (.error ⟨fault, u.span⟩, u.here) :=
    Work.exec_recoverBy_of_fatal hstep (congrArg Severity.isFatal hfatal)
  rw [Construction.run_append_of_ok u.steps, Construction.run, Build.steps,
    Work.exec_bind_of_error hrecover]

end UnitHeader

/-! ### A unit for each header -/

/-- The tokens of a unit that declares languages and makes an element with
nothing but a type word. -/
def declaringTokens (languages : List String) (word : String) : List Token :=
  languages.flatMap (fun language =>
    [.keyword .language, .identifier language]) ++ [.identifier word]

/-- Such tokens are read as the languages and the element. -/
theorem Grammar.exists_items_of_declaringTokens {languages : List String}
    {word : String} {ts : Tokens}
    (h : ts.map (·.value) = declaringTokens languages word) :
    ∃ (names : List (Spanned String)) (span : Span),
      Grammar.Items True ts (names.map ModelText.Item.language ++
        [.declaration ⟨[], ⟨word, span⟩, none, [],
          headerSpan ⟨word, span⟩ none⟩]) [] ∧
      names.map (·.value) = languages := by
  induction languages generalizing ts with
  | nil =>
    obtain ⟨⟨_, span⟩, rfl, rfl⟩ := List.map_eq_singleton_iff.1 h
    have hnone {m : Mark} : Tokens.next? [] ≠ some (.mark m) := nofun
    refine ⟨[], span, .cons (.declaration ?_) (.omitted [] fun _ => hnone)
      (.nil []), rfl⟩
    have hbody : Grammar.OptionalBody True [] [] none [] :=
      .omitted [] fun _ => hnone
    exact .intro (.plain word span []) (.omitted [] fun _ _ => nofun) hbody
      (.omitted [] fun _ => hnone)
  | cons language languages ih =>
    obtain ⟨⟨_, keyword⟩, ts₁, rfl, rfl, h₁⟩ := List.map_eq_cons_iff.1 h
    obtain ⟨⟨_, place⟩, ts₂, rfl, rfl, h₂⟩ := List.map_eq_cons_iff.1 h₁
    obtain ⟨names, span, hitems, hnames⟩ := ih h₂
    exact ⟨⟨language, place⟩ :: names, span, .cons
      (.language keyword place language ts₂)
      (.omitted ts₂ fun _ => hitems.next_ne.2.1) hitems,
      congrArg (language :: ·) hnames⟩

/-- The events that declare languages. -/
def languageEvents (names : List (Spanned String)) : Events :=
  names.map fun name => ⟨.language name.value, name.span⟩

theorem languages_languageEvents (names : List (Spanned String)) :
    (languageEvents names).languages = names.map (·.value) := by
  simp [Events.languages, languageEvents, Event.language?]

/-- No fault ends a unit while it declares languages. -/
theorem Build.exists_steps_languageEvents (ctx : BuildContext)
    (names : List (Spanned String)) (c : Construction) :
    ∃ d, (steps ctx (languageEvents names)).exec c = (.ok (), d) := by
  induction names generalizing c with
  | nil => exact ⟨c, rfl⟩
  | cons name names ih =>
    have hx := exec_language ctx name (c := c)
      (w := ⟨c.toSession, c.languages, c.imports, c.roots⟩) rfl rfl
    obtain ⟨d, hd⟩ := ih _
    exact ⟨d, (Work.exec_bind_of_ok hx _).trans hd⟩

/-- A header can be written with each name, behind all languages with names. -/
theorem exists_unitHeader (catalog : Catalog) {languages : List String}
    {word : String} (hl : ∀ language ∈ languages, Token.IsName language)
    (hw : Token.IsName word) : Nonempty (UnitHeader catalog languages word) := by
  have hexact : ∀ t ∈ declaringTokens languages word, t.IsExact := by
    simp only [declaringTokens, List.mem_append, List.mem_flatMap,
      List.mem_cons, List.not_mem_nil, or_false]
    rintro t (⟨language, hm, rfl | rfl⟩ | rfl)
    · exact ⟨trivial, nofun⟩
    · exact ⟨hl language hm, nofun⟩
    · exact ⟨hw, nofun⟩
  obtain ⟨tokens, hscan, hvalues⟩ :=
    Token.scan_of_spells (Token.spells_intercalate hexact)
  obtain ⟨names, span, hitems, hnames⟩ :=
    Grammar.exists_items_of_declaringTokens hvalues
  obtain ⟨items, hreads, hsame⟩ := hitems.reads
  obtain rfl := hsame trivial
  let place := headerSpan ⟨word, span⟩ none
  have hevents : (SourceTree.mk (names.map Item.language ++
      [.declaration ⟨[], ⟨word, span⟩, none, [], place⟩])).events =
      languageEvents names ++
        ⟨.start ⟨word, span⟩ none, place⟩ :: [⟨.stop, place.lastByte⟩] := by
    rw [SourceTree.events, List.flatMap_append, List.flatMap_map, languageEvents,
      List.map_eq_flatMap]
    rfl
  let ctx : BuildContext := ⟨catalog.metamodel, .session,
    ⟨"main", " ".intercalate ((declaringTokens languages word).map Token.text)⟩⟩
  obtain ⟨here, hsteps⟩ := Build.exists_steps_languageEvents ctx names
    Construction.new.begin
  exact ⟨{
    ctx := ctx
    metamodel := rfl
    span := span
    name := none
    place := place
    before := languageEvents names
    after := [⟨.stop, place.lastByte⟩]
    source := Event.ofSource_eq_ok_iff.2
      ⟨tokens, _, hscan, SourceTree.ofTokens_eq_ok.2 hreads, hevents⟩
    languages := (languages_languageEvents names).trans hnames
    start := .new
    here := here
    steps := hsteps }⟩

/-! ### What can be declared -/

/-- The header creates an object of the type with a name, if there is one of which
elements can be made, and nothing otherwise. -/
structure UnitHeader.StandsFor {catalog : Catalog} {languages : List String}
    {word : String} (u : UnitHeader catalog languages word) (name : String) :
    Prop where
  creates : ∀ type, catalog.Instantiable languages type → type.name = name →
    u.Creates type
  refused : (∀ type, catalog.Instantiable languages type → type.name ≠ name) →
    ∃ fault, u.Refused fault

/-- What comes of the headers of the units that declare the languages. -/
structure Catalog.DeclaresListed (catalog : Catalog) (languages : List String) :
    Prop where
  /-- A word that begins with no small letter stands for the type of this name. -/
  own : ∀ {word : String}, ¬Text.StartsSmall word →
    ∀ u : UnitHeader catalog languages word, u.StandsFor word
  /-- A word that does stands for the type that has its capital letter. -/
  small : ∀ {word : String}, Text.StartsSmall word →
    ∀ u : UnitHeader catalog languages word, u.StandsFor (Text.capitalized word)
  /-- So these types are declared by their own names, and no others. -/
  declarable : (∀ language ∈ languages, Token.IsName language) →
    ∀ type : ObjectType,
      (∃ u : UnitHeader catalog languages type.name, u.Creates type) ↔
        catalog.Instantiable languages type ∧ Token.IsName type.name ∧
          ¬Text.StartsSmall type.name

namespace UnitHeader

variable {catalog : Catalog} {languages : List String} {word : String}

theorem standsFor_capitalized (h : catalog.WellFormed) (hl : languages ≠ [])
    (u : UnitHeader catalog languages word) :
    u.StandsFor (Text.capitalized word) where
  creates type htype hname :=
    u.creates_of_elementType hl (h.elementType_eq_ok.2 ⟨htype, hname⟩)
  refused hnone := by
    cases ht : catalog.metamodel.elementType (.ofList languages)
        (Text.capitalized word) with
    | error fault => exact ⟨fault, u.refused_of_elementType hl ht⟩
    | ok type =>
      obtain ⟨htype, hname⟩ := h.elementType_eq_ok.1 ht
      exact absurd hname (hnone type htype)

/-- What a header creates is of the type that its word stands for. -/
theorem instantiable_of_creates (h : catalog.WellFormed) (hl : languages ≠ [])
    {u : UnitHeader catalog languages word} {type : ObjectType}
    (hu : u.Creates type) :
    catalog.Instantiable languages type ∧
      type.name = Text.capitalized word := by
  cases ht : catalog.metamodel.elementType (.ofList languages)
      (Text.capitalized word) with
  | ok found =>
    -- both say which object is new
    have htypes := (u.creates_of_elementType hl ht).types.symm.trans hu.types
    cases List.append_cancel_left htypes
    exact h.elementType_eq_ok.1 ht
  | error fault =>
    have htypes := hu.types
    rw [(u.refused_of_elementType hl ht).result] at htypes
    simp at htypes

end UnitHeader

/-- **What is listed can be declared**, unless its name begins with a small
letter. -/
theorem Schema.catalog_declaresListed {s : Schema} {catalog : Catalog}
    (h : s.catalog = .ok catalog) {languages : List String}
    (hl : languages ≠ []) : catalog.DeclaresListed languages := by
  have hwf := wellFormed_catalog h
  have hown : ∀ {word : String}, ¬Text.StartsSmall word →
      ∀ u : UnitHeader catalog languages word, u.StandsFor word := by
    intro word hsmall u
    have hstands := u.standsFor_capitalized hwf hl
    rwa [(Text.capitalized_eq_iff u.isName).2 hsmall] at hstands
  refine ⟨hown, fun _ u => u.standsFor_capitalized hwf hl, ?_⟩
  intro hnames type
  constructor
  · rintro ⟨u, hu⟩
    obtain ⟨htype, hname⟩ := UnitHeader.instantiable_of_creates hwf hl hu
    exact ⟨htype, u.isName, (Text.capitalized_eq_iff u.isName).1 hname.symm⟩
  · rintro ⟨htype, hname, hsmall⟩
    obtain ⟨u⟩ := exists_unitHeader catalog hnames hname
    exact ⟨u, (hown hsmall u).creates type htype rfl⟩

/-- A language with two types of elements, one of them with a small letter. -/
def smallLetters : Schema :=
  ⟨[⟨"shapes", [], [⟨"Shape", false, true, [], [], [], []⟩,
    ⟨"ball", false, true, [], [], [], []⟩], [], [], []⟩]⟩

/-- A type of this language, as it is built. -/
def plainType (name : String) : ObjectType :=
  ⟨name, "shapes", false, true, .empty, [], [], []⟩

theorem exists_catalog_smallLetters : ∃ c, smallLetters.catalog = .ok c ∧
    (.object (plainType "Shape") ∈ c.visibleTypes (.ofList ["shapes"]) ∧
      .object (plainType "ball") ∈ c.visibleTypes (.ofList ["shapes"])) ∧
    (let built := (Construction.new.build
      ⟨c.metamodel, .session, ⟨"main", "language shapes ball"⟩⟩).2
    built.graph.types = [] ∧ (built.sink.problems "main").map (fun p =>
      (p.severity, p.diagnostic.category)) = [(.fatal, .unknownElement)]) :=
  exists_ok_of_any (by decide +kernel)

/-- A unit that makes a shape. -/
theorem Schema.catalog_declaresListed_shape : ∃ c, smallLetters.catalog = .ok c ∧
    c.DeclaresListed ["shapes"] ∧
    ∃ u : UnitHeader c ["shapes"] "Shape", u.Creates (plainType "Shape") := by
  obtain ⟨c, hc, ⟨hshape, -⟩, -⟩ := exists_catalog_smallLetters
  have hdeclares : c.DeclaresListed ["shapes"] :=
    catalog_declaresListed hc (List.cons_ne_nil _ _)
  refine ⟨c, hc, hdeclares, (hdeclares.declarable ?_ (plainType "Shape")).2
    ⟨⟨hshape, rfl⟩, by decide, by decide⟩⟩
  exact List.forall_mem_singleton.2 (by decide)

/-- A type that is listed, not abstract and has a name, and yet no element of it
can be made: a header with its name asks for a type `Ball`. -/
theorem small_letter_not_declarable : ∃ c, smallLetters.catalog = .ok c ∧
    c.Instantiable ["shapes"] (plainType "ball") ∧ Token.IsName "ball" ∧
    (let built := (Construction.new.build
      ⟨c.metamodel, .session, ⟨"main", "language shapes ball"⟩⟩).2
    built.graph.types = [] ∧ (built.sink.problems "main").map (fun p =>
      (p.severity, p.diagnostic.category)) = [(.fatal, .unknownElement)]) := by
  obtain ⟨c, hc, ⟨-, hball⟩, hbuilt⟩ := exists_catalog_smallLetters
  exact ⟨c, hc, ⟨hball, rfl⟩, by decide, hbuilt⟩

end ModelText
