import ModelText.Proofs.Construction.OpenScopes
import ModelText.Proofs.Metamodel.Declarations
import ModelText.Proofs.Text.LineIndex
import ModelText.Proofs.Token.Printing
import ModelText.Proofs.Tree.Slots

/-!
# What is kept of literals

A slot of a primitive type of no further meaning keeps texts. What it keeps of a
number or a truth value is the text in which the literal is written anew, and
not the part of the source that the literal was read from. Truth values have one
spelling, so nothing is lost of them; an integer keeps its spelling where no
zero and no sign could be left out; a power of ten is never kept. Spellings of
the same value become the same text, then, as those of two versions can.

`BuildContext.Assigns` names the assignments that building a unit comes to, in
elements and in records at any depth, each with the state before it. By
induction over the ways in which building comes to one, its literal is written
in the source, and its scope is that of an object. So every assignment of a
number or truth value to such a slot succeeds, and the graph shows what is kept.
-/

namespace ModelText

/-! ### Spellings and texts -/

namespace Decimal

theorem not_mem_positionalText {digits : List Char} {c : Char}
    (hd : c ∉ digits) (hz : c ≠ '0') (hp : c ≠ '.') (length : Int) :
    c ∉ positionalText false digits length := by
  have hzeros (n : Nat) : c ∉ List.replicate n '0' :=
    fun h => hz (List.eq_of_mem_replicate h)
  have htake (n : Nat) : c ∉ digits.take n := fun h => hd (List.mem_of_mem_take h)
  have hdrop (n : Nat) : c ∉ digits.drop n := fun h => hd (List.mem_of_mem_drop h)
  unfold positionalText
  split
  · simp [hz, hp, hd, hzeros]
  · split
    · simp [hd, hzeros]
    · simp [hp, htake, hdrop]

/-- No power of ten is written. -/
theorem not_mem_text (d : Decimal) : 'e' ∉ d.text.toList ∧ 'E' ∉ d.text.toList := by
  have hdigits (n : Nat) {c : Char} (hc : c.isDigit = false) :
      c ∉ Nat.toDigits 10 n := fun hm =>
    Token.ne_of_isDigit (Nat.isDigit_of_mem_toDigits (by decide) (by decide) hm)
      hc rfl
  have hmagnitude (significand : Nat) (exponent : Int) {c : Char}
      (hc : c.isDigit = false) (hp : c ≠ '.') :
      c ∉ magnitudeText plain significand exponent := by
    have hz : c ≠ '0' := by
      rintro rfl
      cases hc
    unfold magnitudeText
    split
    · simpa [plain] using hz
    · exact not_mem_positionalText (hdigits _ hc) hz hp _
  cases d with
  | notANumber => decide
  | infinite negative => cases negative <;> decide
  | finite negative significand exponent =>
    unfold text write
    rw [String.toList_ofList, List.mem_append, List.mem_append, not_or, not_or]
    refine ⟨⟨?_, hmagnitude _ _ rfl (by decide)⟩,
      ?_, hmagnitude _ _ rfl (by decide)⟩ <;> cases negative <;> decide

end Decimal

/-- A number or a truth value. -/
def Literal.IsScalar : Literal → Prop
  | .integer _ | .decimal _ | .boolean _ => True
  | _ => False

open Token (Denotes Number)

/-- How the spelling of a number or truth value compares to its text. -/
inductive Literal.Kept : List Char → Literal → Prop
  /-- A truth value is kept as it is written. -/
  | boolean (b : Bool) : Kept (Literal.boolean b).text.toList (.boolean b)
  /-- An integer is kept as it is written where nothing could be left out. -/
  | integer {n : Number} {value : Int64} (hi : n.IsInteger)
      (hv : value.toInt = n.integer)
      (hk : (Literal.integer value).text.toList = n.chars ↔ n.IsPlain) :
      Kept n.chars (.integer value)
  /-- Of a decimal only its value is kept, and no power of ten. -/
  | decimal {n : Number} (hi : ¬n.IsInteger)
      (hk : n.power? ≠ none →
        (Literal.decimal n.decimal).text.toList ≠ n.chars) :
      Kept n.chars (.decimal n.decimal)

theorem Token.Number.chars_ne_of_power {n : Number} (h : n.power? ≠ none)
    (d : Decimal) : d.text.toList ≠ n.chars := by
  obtain ⟨p, hp⟩ := Option.ne_none_iff_exists'.1 h
  have hmem : p.mark ∈ n.chars := by
    simp [Token.Number.chars, Token.Number.raised, hp, Token.Power.chars]
  -- the letter of the power is in the spelling, and in no text
  intro he
  rw [← he] at hmem
  rcases p.isMark with hm | hm <;> rw [hm] at hmem
  · exact d.not_mem_text.1 hmem
  · exact d.not_mem_text.2 hmem

theorem Literal.kept_of_denotes {part : List Char} {token : Token}
    {literal : Literal} (hd : Denotes part token)
    (hs : Grammar.SimpleLiteral token literal) (hl : literal.IsScalar) :
    Literal.Kept part literal := by
  cases hs with
  | integer value =>
    cases hd with
    | integer hi hv =>
      refine .integer hi hv ?_
      rw [text, hv, Text.ofInt, String.toList_ofList]
      exact Number.intChars_integer hi
  | decimal value =>
    cases hd with
    | decimal hi => exact .decimal hi fun hp => Number.chars_ne_of_power hp _
  | yes =>
    cases hd
    exact .boolean true
  | no =>
    cases hd
    exact .boolean false
  | string | identifier => exact hl.elim

/-- The part of the text that a token was read from is the one at its span. -/
theorem Token.exists_slice {text : String} {tokens : Tokens}
    (h : scan text = .ok tokens) {t : Spanned Token} (ht : t ∈ tokens) :
    ∃ part, slice? text.toList t.span.start t.span.stop = some part ∧
      Denotes part t.value := by
  obtain ⟨before, part, after, htext, hstart, hstop, hpart⟩ :=
    (tiled_of_scan h).stands t ht
  rw [List.nil_append] at htext
  rw [byteLength_append] at hstop
  refine ⟨part, ?_, hpart.denotes⟩
  rw [htext, hstart, hstop]
  exact slice?_append before part after

/-! ### Assignments -/

/-- The state in which the fields of a record are assigned: there is an object
for it, and its scope is open. -/
def Construction.inRecord (c : Construction) (type : RecordType) :
    Construction :=
  let (object, graph) := c.graph.instantiate (.record type) false
  { c with graph := graph, scopes := ⟨object, .record type, []⟩ :: c.scopes }

/-- A slot of the scope on top is to be given the value of a literal. -/
structure Assignment where
  /-- The state before. -/
  state : Construction
  /-- The name of the slot. -/
  name : Spanned String
  /-- The literal. -/
  literal : Spanned Literal

/-- The assignments that building a unit comes to: those of the slots of
elements, behind the events before them, and those of the fields of records,
behind the fields before them. -/
inductive BuildContext.Assigns (ctx : BuildContext) (c : Construction) :
    Assignment → Prop
  | slot {events before after : Events} {name : Spanned String}
      {literal : Spanned Literal} {span : Span} {d : Construction}
      (hs : Event.ofSource ctx.unit.text = .ok events)
      (he : events = before ++ ⟨.slot name literal, span⟩ :: after)
      (hd : (Build.steps ctx before).exec c.begin = (.ok (), d)) :
      Assigns ctx c ⟨d, name, literal⟩
  | field {d e : Construction} {name : Spanned String} {field : Field}
      {before after : List Field} {span : Span} {scope : Scope}
      {rest : List Scope} {slot : Slot} {type : RecordType}
      (h : Assigns ctx c
        ⟨d, name, ⟨.record (before ++ field :: after), span⟩⟩)
      (hc : d.scopes = scope :: rest)
      (hs : scope.type.slot? name.value = some slot)
      (ht : ctx.metamodel.lookup? slot.type = some (.record type))
      (he : (Build.assignFields ctx.metamodel ctx.unit before).exec
        (d.inRecord type) = (.ok (), e)) :
      Assigns ctx c ⟨e, field.name, field.value⟩

namespace BuildContext.Assigns

variable {ctx : BuildContext} {c : Construction} {a : Assignment}

/-- The literal of an assignment is written in the source. -/
theorem written (h : ctx.Assigns c a) :
    ∃ tokens : Tokens, Token.scan ctx.unit.text = .ok tokens ∧
      tokens.Writes a.literal := by
  induction h with
  | @slot events before after name literal span _ hs he _ =>
    obtain ⟨tokens, hscan, hw⟩ := Event.writtenBy_of_ofSource hs
    have hm : ⟨.slot name literal, span⟩ ∈ events := by
      rw [he]
      exact List.mem_append_right before (.head after)
    exact ⟨tokens, hscan, hw _ hm⟩
  | field _ _ _ _ _ ih =>
    obtain ⟨tokens, hscan, hw⟩ := ih
    exact ⟨tokens, hscan, hw.field (List.mem_append_right _ (.head _))⟩

/-- The scopes that are open at an assignment stand in the graph. -/
theorem stands (h : ctx.Assigns c a) : a.state.Stands := by
  induction h with
  | slot _ _ hd => exact Build.stands_steps c.stands_begin hd
  | field _ _ _ _ he ih =>
    exact Build.stands_assignFields (ih.opened (.record _) false) rfl he

end BuildContext.Assigns

/-- The values of a slot behind an assignment. -/
theorem Graph.values_assign {g : Graph} {id : ObjectId} {type : StructuredType}
    (ht : g.type? id = some type) (slot : Slot) (value : Value)
    (other : ObjectId) (name : String) :
    (g.update id (·.assign slot value)).values other name =
      if other = id ∧ name = slot.name then
        (if slot.many then g.values id slot.name else []) ++ [value]
      else g.values other name := by
  obtain ⟨o, ho, -⟩ := Option.map_eq_some_iff.1 ht
  unfold values
  rw [object?_update]
  by_cases hid : other = id
  · rw [if_pos hid, hid, ho]
    simp only [Option.map_some, Option.getD_some, Object.values_assign,
      true_and]
    split
    · split <;> rfl
    · rfl
  · simp [hid]

namespace Build

variable {m : Metamodel} {unit : SourceUnit} {c : Construction} {scope : Scope}
  {rest : List Scope} {slot : Slot} {type : PrimitiveType}
  {name : Spanned String} {literal : Spanned Literal}

/-- A number or truth value is assigned to a slot that keeps texts. -/
theorem exec_assign_scalar (hc : c.Stands) (hs : c.scopes = scope :: rest)
    (hf : scope.type.slot? name.value = some slot)
    (ht : m.lookup? slot.type = some (.primitive type))
    (hk : type.kind = .other) (hl : literal.value.IsScalar) :
    (assign m unit name literal).exec c = (.ok (), { c with
      graph := c.graph.update scope.object
        (·.assign slot (.string literal.value.text)) }) := by
  have hvalue : (value m unit slot literal.span literal.value).exec c =
      (.ok (.string literal.value.text), c) := by
    obtain ⟨name, kind⟩ := type
    obtain ⟨literal, span⟩ := literal
    cases hk
    rw [value, ht]
    cases literal with
    | integer | decimal | boolean => rfl
    | string | identifier | record => exact hl.elim
  have hset : c.graph.setValue slot scope.object (.string literal.value.text) =
      .ok (c.graph.update scope.object
        (·.assign slot (.string literal.value.text))) := by
    obtain ⟨o, ho, -⟩ :=
      Option.map_eq_some_iff.1 (hc scope (hs ▸ List.mem_cons_self))
    rw [Graph.setValue_eq, ho]
  rw [assign, assignBy, Work.exec_bind_of_ok (Work.exec_get c)]
  simp only [hs, hf]
  rw [Work.exec_bind_of_ok hvalue, exec_session,
    SessionWork.exec_change_of_ok (f := (·.setValue slot scope.object _)) hset]

end Build

/-- **Slots of no further meaning keep texts, and not spellings.** Wherever
building a unit comes to give a number or a truth value to a slot of a primitive
type of no further meaning, in an element or in a record at any depth, the
literal stands in the source, and the slot gets the text in which its value is
written anew. Nothing else in the session changes. -/
theorem BuildContext.Assigns.stores_text {ctx : BuildContext}
    {c : Construction} {a : Assignment} (h : ctx.Assigns c a) {scope : Scope}
    {rest : List Scope} {slot : Slot} {type : PrimitiveType}
    (hc : a.state.scopes = scope :: rest)
    (hs : scope.type.slot? a.name.value = some slot)
    (ht : ctx.metamodel.lookup? slot.type = some (.primitive type))
    (hk : type.kind = .other) (hl : a.literal.value.IsScalar) :
    ∃ part graph, slice? ctx.unit.text.toList a.literal.span.start
        a.literal.span.stop = some part ∧
      Literal.Kept part a.literal.value ∧
      (Build.assign ctx.metamodel ctx.unit a.name a.literal).exec a.state =
        (.ok (), { a.state with graph := graph }) ∧
      ∀ id name, graph.values id name =
        if id = scope.object ∧ name = slot.name then
          (if slot.many then a.state.graph.values scope.object slot.name
            else []) ++ [.string a.literal.value.text]
        else a.state.graph.values id name := by
  obtain ⟨tokens, hscan, hw⟩ := h.written
  -- a record is neither number nor truth value, so the literal is one token
  obtain ⟨token, hm, hsimple⟩ := hw.token fun fields hr => by
    rw [hr] at hl
    exact hl
  obtain ⟨part, hslice, hpart⟩ := Token.exists_slice hscan hm
  refine ⟨part, _, hslice, Literal.kept_of_denotes hpart hsimple hl,
    Build.exec_assign_scalar h.stands hc hs ht hk hl, ?_⟩
  exact Graph.values_assign (h.stands scope (hc ▸ List.mem_cons_self)) slot _

/-! ### Versions -/

/-- The elements and the records of this language have versions. -/
def versions : Schema :=
  let version : SlotDefinition := ⟨"version", "Version", false, false, none⟩
  let made : SlotDefinition := ⟨"made", "Release", false, false, none⟩
  ⟨[⟨"shapes", [], [⟨"Ball", false, true, [], [version, made], [], []⟩],
    [⟨"Release", [version]⟩], [], [⟨"Version", .other⟩]⟩]⟩

/-- The slot for a version, as it is built. -/
def versionSlot : Slot := ⟨"version", "Version", false, false, .null⟩

/-- The type of the records, as it is built. -/
def releaseType : RecordType := ⟨"Release", "shapes", [versionSlot]⟩

/-- The slot for a record, as it is built. -/
def madeSlot : Slot := ⟨"made", "Release", false, false, .null⟩

/-- The type of the elements, as it is built. -/
def ballType : ObjectType :=
  ⟨"Ball", "shapes", false, true, .empty, [versionSlot, madeSlot], [], []⟩

/-- A ball that was made in a release. -/
def madeBall : SourceUnit :=
  ⟨"main", "language shapes\nball \x7b made = #(version: 007) \x7d"⟩

/-- The events before the release. -/
def madeBallHeader : Events :=
  [⟨.language "shapes", .between 9 15⟩,
    ⟨.start ⟨"ball", .between 16 20⟩ none, .between 16 20⟩]

/-- The version of the release. -/
def releaseVersion : Field :=
  ⟨⟨"version", .between 32 39⟩, ⟨.integer 7, .between 41 44⟩⟩

/-- The tokens of the unit. -/
def madeBallTokens : Tokens :=
  [⟨.keyword .language, .between 0 8⟩, ⟨.identifier "shapes", .between 9 15⟩,
    ⟨.identifier "ball", .between 16 20⟩, ⟨.mark .leftBrace, .between 21 22⟩,
    ⟨.identifier "made", .between 23 27⟩, ⟨.mark .equals, .between 28 29⟩,
    ⟨.mark .recordOpen, .between 30 32⟩, ⟨.identifier "version", .between 32 39⟩,
    ⟨.mark .colon, .between 39 40⟩, ⟨.integer 7, .between 41 44⟩,
    ⟨.mark .rightParen, .between 44 45⟩, ⟨.mark .rightBrace, .between 46 47⟩]

theorem ofSource_madeBall : Event.ofSource madeBall.text =
    .ok (madeBallHeader ++ ⟨.slot ⟨"made", .between 23 27⟩
        ⟨.record ([] ++ releaseVersion :: []), .between 30 45⟩, .between 23 45⟩ ::
      [⟨.stop, .between 46 47⟩]) := by
  have hscan : Token.scan madeBall.text = .ok madeBallTokens := by
    decide +kernel
  have hfields : Grammar.Fields True (madeBallTokens.drop 7) [releaseVersion]
      (madeBallTokens.drop 10) :=
    .cons (.inr rfl) (.simple _ _ (.integer 7)) (.omitted _ (by decide))
      (.nil _)
  have hmembers : Grammar.Members True (madeBallTokens.drop 4)
      [.slot ⟨"made", .between 23 27⟩
        ⟨.record [releaseVersion], .between 30 45⟩] (madeBallTokens.drop 11) :=
    .cons (.slot (.record hfields)) (.omitted _ (by decide)) (.nil _)
  have hball : Grammar.Declaration True (madeBallTokens.drop 2)
      ⟨[], ⟨"ball", .between 16 20⟩, none, _, .between 16 47⟩ [] :=
    .intro (.plain _ _ _) (.omitted _ (by simp [madeBallTokens]))
      (.taken hmembers) (.omitted _ (by decide))
  have hitems : Grammar.Items True madeBallTokens
      [.language ⟨"shapes", .between 9 15⟩, .declaration _] [] :=
    .cons (.language _ _ _ _) (.omitted _ (by decide))
      (.cons (.declaration hball) (.omitted _ (by decide)) (.nil _))
  obtain ⟨items, hreads, hsame⟩ := hitems.reads
  obtain rfl := hsame trivial
  exact Event.ofSource_eq_ok_iff.2
    ⟨_, _, hscan, SourceTree.ofTokens_eq_ok.2 hreads, rfl⟩

/-- A ball of one version, made in a release of another one. -/
def twoVersions : SourceUnit :=
  ⟨"main",
    "language shapes\nball \x7b made = #(version: 1.10) version = 1.1 \x7d"⟩

theorem exists_catalog_versions : ∃ c, versions.catalog = .ok c ∧
    c.lookup? "Release" = some (.record releaseType) ∧
    c.lookup? "Version" = some (.primitive ⟨"Version", .other⟩) ∧
    (let header := (Build.steps ⟨c.metamodel, .session, madeBall⟩
      madeBallHeader).exec Construction.new.begin
    header.1 = .ok () ∧ header.2.scopes = [⟨⟨0⟩, .object ballType, []⟩]) ∧
    (let graph := (Construction.new.build
      ⟨c.metamodel, .session, twoVersions⟩).2.graph
    graph.value? ⟨0⟩ "made" = some (.record ⟨1⟩) ∧
      graph.value? ⟨0⟩ "version" = some (.string "1.1") ∧
      graph.value? ⟨1⟩ "version" = some (.string "1.1")) :=
  exists_ok_of_any (by decide +kernel)

/-- The version of a release is kept without its zeros. -/
theorem BuildContext.Assigns.stores_text_release : ∃ c,
    versions.catalog = .ok c ∧
    (let ctx : BuildContext := ⟨c.metamodel, .session, madeBall⟩
    ∃ d object rest graph,
      ctx.Assigns .new ⟨d, releaseVersion.name, releaseVersion.value⟩ ∧
      d.scopes = ⟨object, .record releaseType, []⟩ :: rest ∧
      Literal.Kept ['0', '0', '7'] (.integer 7) ∧
      (Build.assign ctx.metamodel ctx.unit releaseVersion.name
          releaseVersion.value).exec d = (.ok (), { d with graph := graph }) ∧
      graph.values object "version" = [.string "7"]) := by
  obtain ⟨c, hc, hrelease, hversion, ⟨hheader, hscopes⟩, -⟩ :=
    exists_catalog_versions
  let ctx : BuildContext := ⟨c.metamodel, .session, madeBall⟩
  have hslot : ctx.Assigns .new _ :=
    .slot ofSource_madeBall rfl (Prod.ext hheader rfl)
  have hfield := hslot.field hscopes rfl hrelease rfl
  obtain ⟨part, graph, hslice, hkept, hexec, hvalues⟩ :=
    BuildContext.Assigns.stores_text hfield rfl rfl hversion rfl trivial
  have hpart : slice? madeBall.text.toList 41 44 = some ['0', '0', '7'] := by
    decide
  obtain rfl := Option.some.inj (hslice.symm.trans hpart)
  refine ⟨c, hc, _, _, _, graph, hfield, rfl, hkept, hexec, ?_⟩
  rw [hvalues, if_pos ⟨rfl, rfl⟩]
  rfl

/-- Of two versions that are written apart, the same is kept. -/
theorem spellings_become_one : ∃ c, versions.catalog = .ok c ∧
    (let graph := (Construction.new.build
      ⟨c.metamodel, .session, twoVersions⟩).2.graph
    graph.value? ⟨0⟩ "made" = some (.record ⟨1⟩) ∧
      graph.value? ⟨0⟩ "version" = some (.string "1.1") ∧
      graph.value? ⟨1⟩ "version" = some (.string "1.1")) := by
  obtain ⟨c, hc, -, -, -, hgraph⟩ := exists_catalog_versions
  exact ⟨c, hc, hgraph⟩

end ModelText
