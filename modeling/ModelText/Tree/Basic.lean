import ModelText.Literal

/-!
# Source units as trees

A source unit is a list of items: the languages it uses, the units it imports,
and the elements it declares. A declaration has a type word, perhaps a name and
modifiers, and members, which assign slots, link to other elements, or hold
declarations in turn. Every part remembers where it stands in the text.
-/

namespace ModelText

mutual

/-- The declaration of an element. -/
structure Declaration where
  /-- The modifiers before the type word. -/
  modifiers : List (Spanned String)
  /-- The word that names the type. -/
  typeWord : Spanned String
  /-- The name of the element. -/
  name : Option (Spanned String)
  /-- What stands between the braces. -/
  members : List Member
  /-- From the type word to the closing brace, or to the end of the header. -/
  span : Span

/-- A member of a declaration. -/
inductive Member where
  /-- A literal for a slot. -/
  | slot (name : Spanned String) (value : Spanned Literal)
  /-- A path to another element. -/
  | link (feature : Spanned String) (path : Spanned (List String))
  /-- Declarations held by the element; the span is that of the braces. -/
  | block (feature : Spanned String) (declarations : List Declaration)
    (span : Span)

end

/-- An item of a source unit. -/
inductive Item where
  | language (name : Spanned String)
  | importUnit (name : Spanned String)
  | declaration (declaration : Declaration)

/-- A source unit. -/
structure SourceTree where
  /-- The items, in the order they are written. -/
  items : List Item

/-- The place of a header: its type word and its name. -/
def headerSpan (typeWord : Spanned String) (name : Option (Spanned String)) :
    Span :=
  typeWord.span.union (name.getD typeWord).span

end ModelText
