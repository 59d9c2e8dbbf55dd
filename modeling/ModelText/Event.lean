import ModelText.Token.Lexer
import ModelText.Tree.Parser

/-!
# Construction events

A tree is built up element by element, so it is told as a list of events from
left to right: an element starts and ends, a block of it starts and ends, and
between these come its slots and links. `SourceTree.events` tells a tree;
`Event.ofSource` goes from the text of a unit to its events, or to what is
wrong with the text. A text with faults has no events.
-/

namespace ModelText

/-- A step in the construction of the elements of a unit. -/
inductive Event where
  /-- The unit uses a language. -/
  | language (name : String)
  /-- The unit imports another one. -/
  | importUnit (name : String)
  /-- A modifier of the element that starts next. -/
  | modifier (tag : String)
  /-- An element starts: its type word and its name. -/
  | start (typeWord : Spanned String) (name : Option (Spanned String))
  /-- The element that started last and has not ended yet ends. -/
  | stop
  /-- A literal for a slot of the element. -/
  | slot (name : Spanned String) (value : Spanned Literal)
  /-- A block of the element starts. -/
  | blockStart (feature : Spanned String)
  /-- A block ends that holds so many declarations. -/
  | blockEnd (feature : Spanned String) (children : Nat)
  /-- A path to another element. -/
  | link (feature : Spanned String) (path : Spanned (List String))

/-- The events of a unit, each with its place. -/
abbrev Events := List (Spanned Event)

mutual

/-- The events of a declaration. It ends at the last byte of its span. -/
def Declaration.events : Declaration → Events
  | ⟨modifiers, typeWord, name, members, span⟩ =>
    modifiers.map (fun tag => ⟨.modifier tag.value, tag.span⟩) ++
      ⟨.start typeWord name, headerSpan typeWord name⟩ ::
      (memberEvents members ++ [⟨.stop, span.lastByte⟩])

/-- The events of the members of a declaration. -/
def memberEvents : List Member → Events
  | [] => []
  | .slot name value :: rest =>
    ⟨.slot name value, name.span.union value.span⟩ :: memberEvents rest
  | .link feature path :: rest =>
    ⟨.link feature path, feature.span.union path.span⟩ :: memberEvents rest
  | .block feature declarations span :: rest =>
    ⟨.blockStart feature, feature.span⟩ ::
      (declarationEvents declarations ++
        ⟨.blockEnd feature declarations.length, span.lastByte⟩ ::
          memberEvents rest)

/-- The events of the declarations in a block. -/
def declarationEvents : List Declaration → Events
  | [] => []
  | d :: rest => d.events ++ declarationEvents rest

end

/-- The events of an item. -/
def Item.events : Item → Events
  | .language name => [⟨.language name.value, name.span⟩]
  | .importUnit name => [⟨.importUnit name.value, name.span⟩]
  | .declaration d => d.events

/-- The events of a unit, in the order of its text. -/
def SourceTree.events (tree : SourceTree) : Events :=
  tree.items.flatMap Item.events

/-- The tree of a text, or the diagnostics of its faults. -/
def SourceTree.ofSource (source : String) :
    Except (List Diagnostic) SourceTree :=
  match Token.scan source with
  | .error errors => .error (errors.map (·.diagnostic))
  | .ok tokens =>
    match SourceTree.ofTokens tokens with
    | .error e => .error [e.diagnostic source.utf8ByteSize]
    | .ok tree => .ok tree

/-- The events of a text, or the diagnostics of its faults. -/
def Event.ofSource (source : String) : Except (List Diagnostic) Events :=
  (SourceTree.ofSource source).map (·.events)

end ModelText
