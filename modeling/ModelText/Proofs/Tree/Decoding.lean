import ModelText.Proofs.Tree.Brackets
import ModelText.Proofs.Tree.Displaced

/-!
# Trees rebuilt from their events

`SourceTree.ofEvents?` puts a tree together again from its events. It keeps the
parts that are not complete yet as drafts, the innermost one first: an element
with the members that were told so far, a block with its declarations. An event
at an end completes a draft and hands it to the one around it.

The events are read without the places in them, so all that the tree is made of
apart from its places is told by them. The induction is on the tree: whatever
drafts there are, the events of a part add just this part to the innermost one.
-/

namespace ModelText

/-- An event without the places in it. -/
def Event.unplaced : Event → Event
  | .language name => .language name
  | .importUnit name => .importUnit name
  | .modifier tag => .modifier tag
  | .start typeWord name =>
    .start typeWord.unplaced (name.map (·.unplaced))
  | .stop => .stop
  | .slot name ⟨literal, _⟩ => .slot name.unplaced ⟨literal.unplaced, default⟩
  | .blockStart feature => .blockStart feature.unplaced
  | .blockEnd feature children => .blockEnd feature.unplaced children
  | .link feature path => .link feature.unplaced path.unplaced

/-- What events tell, without any places. -/
def Events.bare (events : Events) : List Event :=
  events.told.map Event.unplaced

@[simp] theorem Events.bare_append (events rest : Events) :
    Events.bare (events ++ rest) = events.bare ++ rest.bare := by
  simp [Events.bare]

/-- A part of a tree that is not complete yet. -/
inductive OpenPart where
  /-- An element, with the members so far. -/
  | element (modifiers : List (Spanned String)) (typeWord : Spanned String)
    (name : Option (Spanned String)) (members : List Member)
  /-- A block, with the declarations so far. -/
  | block (feature : Spanned String) (declarations : List Declaration)

/-- How far a tree has been rebuilt. -/
structure Rebuilding where
  /-- The items that are complete. -/
  items : List Item
  /-- The parts that are not complete, the innermost one first. -/
  drafts : List OpenPart
  /-- The modifiers of the declaration that starts next. -/
  modifiers : List (Spanned String)

namespace Rebuilding

/-- Adds a member to the innermost element. -/
def addMember (r : Rebuilding) (member : Member) : Option Rebuilding :=
  match r.drafts with
  | .element modifiers typeWord name members :: outer =>
    some { r with
      drafts := .element modifiers typeWord name (members ++ [member]) :: outer }
  | _ => none

/-- Adds a declaration to the innermost block, or to the items if there is no
draft around it. -/
def addDeclaration (r : Rebuilding) (d : Declaration) : Option Rebuilding :=
  match r.drafts with
  | [] => some { r with items := r.items ++ [.declaration d] }
  | .block feature declarations :: outer =>
    some { r with drafts := .block feature (declarations ++ [d]) :: outer }
  | .element _ _ _ _ :: _ => none

/-- Adds what an event tells. -/
def step (r : Rebuilding) : Event → Option Rebuilding
  | .language name =>
    some { r with items := r.items ++ [.language ⟨name, default⟩] }
  | .importUnit name =>
    some { r with items := r.items ++ [.importUnit ⟨name, default⟩] }
  | .modifier tag =>
    some { r with modifiers := r.modifiers ++ [⟨tag, default⟩] }
  | .start typeWord name =>
    some ⟨r.items, .element r.modifiers typeWord name [] :: r.drafts, []⟩
  | .stop =>
    match r.drafts with
    | .element modifiers typeWord name members :: outer =>
      addDeclaration { r with drafts := outer }
        ⟨modifiers, typeWord, name, members, default⟩
    | _ => none
  | .slot name value => r.addMember (.slot name value)
  | .link feature path => r.addMember (.link feature path)
  | .blockStart feature => some { r with drafts := .block feature [] :: r.drafts }
  | .blockEnd _ _ =>
    match r.drafts with
    | .block feature declarations :: outer =>
      addMember { r with drafts := outer } (.block feature declarations default)
    | _ => none

end Rebuilding

/-- The tree that is told by events, if they tell a whole tree. -/
def SourceTree.ofEvents? (events : List Event) : Option SourceTree :=
  match events.foldlM Rebuilding.step ⟨[], [], []⟩ with
  | some ⟨items, [], []⟩ => some ⟨items⟩
  | _ => none

namespace Rebuilding

variable {items : List Item} {outer : List OpenPart}

theorem foldlM_append_of_some {r r' : Rebuilding} {part : List Event}
    (h : part.foldlM step r = some r') (rest : List Event) :
    (part ++ rest).foldlM step r = rest.foldlM step r' := by
  rw [List.foldlM_append, h]
  rfl

/-- A header opens a draft of its element. -/
theorem rebuild_header (tags done : List (Spanned String))
    (typeWord : Spanned String) (name : Option (Spanned String)) :
    ((headerEvents tags typeWord name).map Event.unplaced).foldlM step
        ⟨items, outer, done⟩ =
      some ⟨items, .element (done ++ tags.map (·.unplaced)) typeWord.unplaced
        (name.map (·.unplaced)) [] :: outer, []⟩ := by
  induction tags generalizing done with
  | nil => simp [headerEvents, Event.unplaced, step]
  | cons tag tags ih =>
    have ih := ih (done ++ [tag.unplaced])
    rw [List.append_assoc] at ih
    exact ih

mutual

/-- The events of a declaration add it to what is around it. -/
theorem rebuild_declaration (d : Declaration) (items : List Item)
    (outer : List OpenPart) :
    (Events.bare d.events).foldlM step ⟨items, outer, []⟩ =
      addDeclaration ⟨items, outer, []⟩ d.unplaced := by
  match d with
  | ⟨tags, typeWord, name, members, span⟩ =>
    have hm := rebuild_members members [] (tags.map (·.unplaced))
      typeWord.unplaced (name.map (·.unplaced)) items outer
    rw [Events.bare, Declaration.told_events, List.map_append, List.map_append,
      foldlM_append_of_some (rebuild_header tags [] typeWord name),
      List.nil_append, ← Events.bare, foldlM_append_of_some hm]
    -- the event at the end hands the draft to what is around it
    simp only [List.map_cons, List.map_nil, List.foldlM_cons, List.foldlM_nil,
      bind_pure]
    rfl

/-- The events of members add them to the element around them. -/
theorem rebuild_members (members done : List Member)
    (tags : List (Spanned String)) (typeWord : Spanned String)
    (name : Option (Spanned String)) (items : List Item) (outer : List OpenPart) :
    (Events.bare (memberEvents members)).foldlM step
        ⟨items, .element tags typeWord name done :: outer, []⟩ =
      some ⟨items, .element tags typeWord name
        (done ++ unplacedMembers members) :: outer, []⟩ := by
  match members with
  | [] => simp [memberEvents, Events.bare, unplacedMembers]
  | .slot slot ⟨literal, span⟩ :: rest =>
    have ih := rebuild_members rest
      (done ++ [.slot slot.unplaced ⟨literal.unplaced, default⟩])
      tags typeWord name items outer
    rw [List.append_assoc] at ih
    exact ih
  | .link feature path :: rest =>
    have ih := rebuild_members rest
      (done ++ [.link feature.unplaced path.unplaced])
      tags typeWord name items outer
    rw [List.append_assoc] at ih
    exact ih
  | .block feature declarations span :: rest =>
    have hd := rebuild_declarations declarations feature.unplaced [] items
      (.element tags typeWord name done :: outer)
    have ih := rebuild_members rest
      (done ++ [.block feature.unplaced (unplacedDeclarations declarations)
        default]) tags typeWord name items outer
    rw [List.append_assoc] at ih
    rw [Events.bare, Member.told_block, List.map_cons, List.map_append,
      ← Events.bare]
    exact (foldlM_append_of_some hd _).trans ih

/-- The events of declarations add them to the block around them. -/
theorem rebuild_declarations (declarations : List Declaration)
    (feature : Spanned String) (done : List Declaration) (items : List Item)
    (outer : List OpenPart) :
    (Events.bare (declarationEvents declarations)).foldlM step
        ⟨items, .block feature done :: outer, []⟩ =
      some ⟨items, .block feature
        (done ++ unplacedDeclarations declarations) :: outer, []⟩ := by
  match declarations with
  | [] => simp [declarationEvents, Events.bare, unplacedDeclarations]
  | d :: rest =>
    have ih := rebuild_declarations rest feature (done ++ [d.unplaced]) items
      outer
    rw [List.append_assoc] at ih
    rw [declarationEvents, Events.bare_append]
    exact (foldlM_append_of_some (rebuild_declaration d items _) _).trans ih

end

/-- The events of an item add it to the items. -/
theorem rebuild_item (item : Item) (items : List Item) :
    (Events.bare item.events).foldlM step ⟨items, [], []⟩ =
      some ⟨items ++ [item.unplaced], [], []⟩ := by
  cases item with
  | language name => rfl
  | importUnit name => rfl
  | declaration d => exact rebuild_declaration d items []

theorem rebuild_items (rest items : List Item) :
    (Events.bare (rest.flatMap Item.events)).foldlM step ⟨items, [], []⟩ =
      some ⟨items ++ rest.map Item.unplaced, [], []⟩ := by
  induction rest generalizing items with
  | nil => simp [Events.bare]
  | cons item rest ih =>
    rw [List.flatMap_cons, Events.bare_append,
      foldlM_append_of_some (rebuild_item item items), ih, List.append_assoc]
    rfl

end Rebuilding

namespace SourceTree

/-- A tree is rebuilt from its events, but for its places. -/
theorem ofEvents?_events (tree : SourceTree) :
    ofEvents? tree.events.bare = some tree.unplaced := by
  have h := Rebuilding.rebuild_items tree.items []
  rw [ofEvents?, events, h]
  rfl

/-- Telling a tree as events loses nothing: they are well bracketed, and the
tree can be rebuilt from them, with all that is in it but its places. -/
theorem events_lose_nothing (tree : SourceTree) :
    Event.WellBracketed tree.events.told ∧
      ofEvents? tree.events.bare = some tree.unplaced :=
  ⟨tree.wellBracketed_events, tree.ofEvents?_events⟩

end SourceTree

end ModelText
