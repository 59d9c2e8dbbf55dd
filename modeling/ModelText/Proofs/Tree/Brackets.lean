import ModelText.Event

/-!
# Events are well bracketed

An element and a block of it are told with an event at their start and one at
their end, as with brackets. `Bracket.openBehind` reads events from left to
right and keeps the brackets that are open, each block with the declarations
that have started directly in it so far. It gets stuck at an event that closes
what is not open, and at the end of a block that tells another feature or
another number of declarations than the block has.

`Event.WellBracketed` says that all brackets are closed and that each kind of
event has its place among them. `Event.Runs` says it of a part of the events,
between the brackets open before it and behind it, so that parts can be put one
behind another. The events of a tree are put together of such parts, one for
each constructor.
-/

namespace ModelText

/-- A bracket that is open among events. -/
inductive Bracket where
  /-- An element that has started. -/
  | element
  /-- A block of an element, and how many declarations it has so far. -/
  | block (feature : Spanned String) (children : Nat)
  deriving DecidableEq

namespace Bracket

/-- The brackets, the innermost one first, when a declaration starts directly in
them: it counts for its block, and none starts directly in an element. -/
def declare : List Bracket → Option (List Bracket)
  | [] => some []
  | .block feature children :: outer =>
    some (.block feature (children + 1) :: outer)
  | .element :: _ => none

/-- The brackets open behind an event, unless it closes what is not open. -/
def next (brackets : List Bracket) : Event → Option (List Bracket)
  | .start _ _ => (declare brackets).map (.element :: ·)
  | .stop =>
    match brackets with
    | .element :: outer => some outer
    | _ => none
  | .blockStart feature => some (.block feature 0 :: brackets)
  | .blockEnd feature children =>
    match brackets with
    | bracket :: outer =>
      if bracket = .block feature children then some outer else none
    | [] => none
  | _ => some brackets

/-- The brackets open behind events that begin outside of all brackets. -/
def openBehind (events : List Event) : Option (List Bracket) :=
  events.foldlM next []

end Bracket

namespace Event

/-- An event that a modifier can stand before. -/
def TakesModifier : Event → Prop
  | .modifier _ | .start _ _ => True
  | _ => False

/-- An event has its place: outside of all brackets if it is one of the unit,
directly in an element if it is one of its members, and a modifier before
another one or before the start of an element. -/
def Fits (brackets : List Bracket) (after : List Event) : Event → Prop
  | .language _ | .importUnit _ => brackets = []
  | .slot _ _ | .link _ _ | .blockStart _ =>
    ∃ outer, brackets = .element :: outer
  | .modifier _ => ∃ next rest, after = next :: rest ∧ next.TakesModifier
  | .start _ _ | .stop | .blockEnd _ _ => True

/-- The brackets of events are closed in the order of their nesting, and each
event has its place among them. -/
structure WellBracketed (events : List Event) : Prop where
  closed : Bracket.openBehind events = some []
  placed : ∀ before event after, events = before ++ event :: after →
    ∃ brackets, Bracket.openBehind before = some brackets ∧
      event.Fits brackets after

/-- Events that have their places, from the brackets open before them to those
open behind them. -/
inductive Runs : List Bracket → List Event → List Bracket → Prop
  | nil (brackets : List Bracket) : Runs brackets [] brackets
  | cons {brackets inner behind : List Bracket} {event : Event}
      {rest : List Event} (hf : event.Fits brackets rest)
      (hn : Bracket.next brackets event = some inner)
      (h : Runs inner rest behind) : Runs brackets (event :: rest) behind

theorem Fits.append {event : Event} {brackets : List Bracket}
    {after : List Event} (h : event.Fits brackets after) (more : List Event) :
    event.Fits brackets (after ++ more) := by
  cases event with
  | modifier tag =>
    obtain ⟨next, rest, rfl, hn⟩ := h
    exact ⟨next, rest ++ more, rfl, hn⟩
  | _ => exact h

namespace Runs

variable {brackets inner behind : List Bracket} {events rest : List Event}

theorem append (h : Runs brackets events inner) (hr : Runs inner rest behind) :
    Runs brackets (events ++ rest) behind := by
  induction h with
  | nil => exact hr
  | cons hf hn _ ih => exact .cons (hf.append rest) hn (ih hr)

theorem single {event : Event} (hf : event.Fits brackets [])
    (hn : Bracket.next brackets event = some inner) :
    Runs brackets [event] inner := .cons hf hn (.nil inner)

theorem foldlM_eq (h : Runs brackets events behind) :
    events.foldlM Bracket.next brackets = some behind := by
  induction h with
  | nil => rfl
  | cons _ hn _ ih => rw [List.foldlM_cons, hn, Option.bind_eq_bind,
      Option.bind_some, ih]

/-- An event in the midst of others finds its place behind those before it. -/
theorem placed {before after : List Event} {event : Event}
    (h : Runs brackets (before ++ event :: after) behind) :
    ∃ inner, before.foldlM Bracket.next brackets = some inner ∧
      event.Fits inner after := by
  induction before generalizing brackets with
  | nil =>
    cases h with
    | cons hf _ _ => exact ⟨brackets, rfl, hf⟩
  | cons first before ih =>
    cases h with
    | cons _ hn h =>
      obtain ⟨inner, hi, hf⟩ := ih h
      refine ⟨inner, ?_, hf⟩
      rw [List.foldlM_cons, hn, Option.bind_eq_bind, Option.bind_some, hi]

/-- What runs from no brackets to none is well bracketed. -/
theorem wellBracketed (h : Runs [] events []) : WellBracketed events where
  closed := h.foldlM_eq
  placed _ _ _ he := (he ▸ h).placed

end Runs

end Event

/-- What events tell, without the places they tell it of. -/
def Events.told (events : Events) : List Event := events.map (·.value)

@[simp] theorem Events.told_nil : Events.told [] = [] := rfl

@[simp] theorem Events.told_cons (event : Spanned Event) (rest : Events) :
    Events.told (event :: rest) = event.value :: Events.told rest := rfl

@[simp] theorem Events.told_append (events rest : Events) :
    Events.told (events ++ rest) = events.told ++ rest.told :=
  List.map_append

/-! ### Trees -/

/-- What is told of a header: the modifiers, and that the element starts. -/
def headerEvents (tags : List (Spanned String)) (typeWord : Spanned String)
    (name : Option (Spanned String)) : List Event :=
  tags.map (fun tag => .modifier tag.value) ++ [.start typeWord name]

theorem Declaration.told_events (tags : List (Spanned String))
    (typeWord : Spanned String) (name : Option (Spanned String))
    (members : List Member) (span : Span) :
    Events.told (Declaration.events ⟨tags, typeWord, name, members, span⟩) =
      headerEvents tags typeWord name ++
        (Events.told (memberEvents members) ++ [.stop]) := by
  simp [Declaration.events, headerEvents, Events.told, Function.comp_def]

theorem memberEvents_cons (m : Member) (ms : List Member) :
    memberEvents (m :: ms) = memberEvents [m] ++ memberEvents ms := by
  cases m <;> simp [memberEvents]

theorem Member.told_block (feature : Spanned String)
    (declarations : List Declaration) (span : Span) (rest : List Member) :
    Events.told (memberEvents (.block feature declarations span :: rest)) =
      .blockStart feature :: (Events.told (declarationEvents declarations) ++
        .blockEnd feature declarations.length ::
          Events.told (memberEvents rest)) := by
  simp [memberEvents]

namespace Event

/-- A header opens an element where a declaration can start. -/
theorem runs_header {brackets inner : List Bracket}
    (h : Bracket.declare brackets = some inner) (tags : List (Spanned String))
    (typeWord : Spanned String) (name : Option (Spanned String)) :
    Runs brackets (headerEvents tags typeWord name) (.element :: inner) := by
  induction tags with
  | nil => exact .single trivial (by rw [Bracket.next, h]; rfl)
  | cons tag tags ih =>
    refine .cons ?_ rfl ih
    cases tags with
    | nil => exact ⟨_, [], rfl, trivial⟩
    | cons other tags => exact ⟨_, _, rfl, trivial⟩

mutual

/-- A declaration leaves the brackets as they are, and counts for its block. -/
theorem runs_declaration (d : Declaration) {brackets inner : List Bracket}
    (h : Bracket.declare brackets = some inner) :
    Runs brackets (Events.told d.events) inner := by
  match d with
  | ⟨tags, typeWord, name, members, span⟩ =>
    rw [Declaration.told_events]
    exact (runs_header h tags typeWord name).append
      ((runs_members members inner).append (.single trivial rfl))

/-- The members of an element stand directly in it. -/
theorem runs_members (members : List Member) (outer : List Bracket) :
    Runs (.element :: outer) (Events.told (memberEvents members))
      (.element :: outer) := by
  match members with
  | [] => exact .nil _
  | .slot name value :: rest =>
    exact .cons ⟨outer, rfl⟩ rfl (runs_members rest outer)
  | .link feature path :: rest =>
    exact .cons ⟨outer, rfl⟩ rfl (runs_members rest outer)
  | .block feature declarations span :: rest =>
    rw [Member.told_block]
    have hd := runs_declarations declarations feature 0 (.element :: outer)
    have hn : Bracket.next
        (.block feature (0 + declarations.length) :: .element :: outer)
        (.blockEnd feature declarations.length) = some (.element :: outer) := by
      rw [Nat.zero_add, Bracket.next, if_pos rfl]
    exact .cons ⟨outer, rfl⟩ rfl
      (hd.append (.cons trivial hn (runs_members rest outer)))

/-- The declarations of a block are counted. -/
theorem runs_declarations (declarations : List Declaration)
    (feature : Spanned String) (children : Nat) (outer : List Bracket) :
    Runs (.block feature children :: outer)
      (Events.told (declarationEvents declarations))
      (.block feature (children + declarations.length) :: outer) := by
  match declarations with
  | [] => exact .nil _
  | d :: rest =>
    have hr := runs_declarations rest feature (children + 1) outer
    rw [Nat.add_right_comm, Nat.add_assoc] at hr
    rw [declarationEvents, Events.told_append]
    exact (runs_declaration d rfl).append hr

end

theorem runs_item (item : Item) : Runs [] (Events.told item.events) [] := by
  cases item with
  | language name => exact .single rfl rfl
  | importUnit name => exact .single rfl rfl
  | declaration d => exact runs_declaration d rfl

end Event

/-- The events of a tree are well bracketed. -/
theorem SourceTree.wellBracketed_events (tree : SourceTree) :
    Event.WellBracketed (Events.told tree.events) := by
  suffices h : ∀ items : List Item,
      Event.Runs [] (Events.told (items.flatMap Item.events)) [] from
    (h tree.items).wellBracketed
  intro items
  induction items with
  | nil => exact .nil []
  | cons item rest ih =>
    rw [List.flatMap_cons, Events.told_append]
    exact (Event.runs_item item).append ih

end ModelText
