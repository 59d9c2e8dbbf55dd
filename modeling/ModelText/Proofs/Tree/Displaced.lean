import ModelText.Construction.Session
import ModelText.Text.Capital
import ModelText.Tree.Basic

/-!
# Trees of texts that are written otherwise

Two texts can have the same tree but for the places of its parts: `unplaced`
puts every part of a tree at the start of the text. And the links of an element
can be written anywhere in it. `Moved` says that one link has another place
among the members of its element, at whatever depth, where it passes over slots
and blocks but over no other link.
-/

namespace ModelText

/-! ### Places left out -/

/-- The same at the start of a text. -/
def Spanned.unplaced {α : Type} (x : Spanned α) : Spanned α :=
  ⟨x.value, default⟩

mutual

/-- A literal without the places of the fields in it. -/
def Literal.unplaced : Literal → Literal
  | .record fields => .record (unplacedFields fields)
  | literal => literal

/-- Fields without their places. -/
def unplacedFields : List Field → List Field
  | [] => []
  | ⟨name, ⟨literal, _⟩⟩ :: rest =>
    ⟨name.unplaced, ⟨literal.unplaced, default⟩⟩ :: unplacedFields rest

end

mutual

/-- A declaration without its places. -/
def Declaration.unplaced : Declaration → Declaration
  | ⟨modifiers, typeWord, name, members, _⟩ =>
    ⟨modifiers.map (·.unplaced), typeWord.unplaced, name.map (·.unplaced),
      unplacedMembers members, default⟩

/-- Members without their places. -/
def unplacedMembers : List Member → List Member
  | [] => []
  | .slot name ⟨literal, _⟩ :: rest =>
    .slot name.unplaced ⟨literal.unplaced, default⟩ :: unplacedMembers rest
  | .link feature path :: rest =>
    .link feature.unplaced path.unplaced :: unplacedMembers rest
  | .block feature declarations _ :: rest =>
    .block feature.unplaced (unplacedDeclarations declarations) default ::
      unplacedMembers rest

/-- Declarations without their places. -/
def unplacedDeclarations : List Declaration → List Declaration
  | [] => []
  | d :: rest => d.unplaced :: unplacedDeclarations rest

end

/-- An item without its places. -/
def Item.unplaced : Item → Item
  | .language name => .language name.unplaced
  | .importUnit name => .importUnit name.unplaced
  | .declaration d => .declaration d.unplaced

/-- A tree without its places. -/
def SourceTree.unplaced (tree : SourceTree) : SourceTree :=
  ⟨tree.items.map Item.unplaced⟩

/-! ### Links at other places -/

/-- A member that is a link. -/
def Member.isLink : Member → Bool
  | .link _ _ => true
  | _ => false

/-- The members of an element of some type, and the same with a link of one of
its references written later or earlier. No other link is passed over. -/
inductive LinkMoved (type : ObjectType) : List Member → List Member → Prop
  | later {feature : Spanned String} {path : Spanned (List String)}
      {reference : Feature} (before between after : List Member)
      (hr : type.reference? feature.value = some reference)
      (hl : ∀ member ∈ between, member.isLink = false) :
      LinkMoved type (before ++ .link feature path :: (between ++ after))
        (before ++ (between ++ .link feature path :: after))
  | earlier {feature : Spanned String} {path : Spanned (List String)}
      {reference : Feature} (before between after : List Member)
      (hr : type.reference? feature.value = some reference)
      (hl : ∀ member ∈ between, member.isLink = false) :
      LinkMoved type (before ++ (between ++ .link feature path :: after))
        (before ++ .link feature path :: (between ++ after))

/-- A declaration, and the same with a link of one of its elements moved among
the members of this element. -/
inductive Declaration.Moved (c : Catalog) : Declaration → Declaration → Prop
  | here {modifiers : List (Spanned String)} {typeWord : Spanned String}
      {name : Option (Spanned String)} {members members' : List Member}
      {span : Span} {type : ObjectType}
      (ht : c.lookup? (Text.capitalized typeWord.value) = some (.object type))
      (hm : LinkMoved type members members') :
      Moved c ⟨modifiers, typeWord, name, members, span⟩
        ⟨modifiers, typeWord, name, members', span⟩
  | inside {modifiers : List (Spanned String)} {typeWord : Spanned String}
      {name : Option (Spanned String)} {span : Span}
      {before after : List Member} {feature : Spanned String}
      {first last : List Declaration} {d d' : Declaration} {block : Span}
      (h : Moved c d d') :
      Moved c
        ⟨modifiers, typeWord, name,
          before ++ .block feature (first ++ d :: last) block :: after, span⟩
        ⟨modifiers, typeWord, name,
          before ++ .block feature (first ++ d' :: last) block :: after, span⟩

/-- A tree, and the same with a link moved among the members of its element. -/
inductive SourceTree.Moved (c : Catalog) : SourceTree → SourceTree → Prop
  | declaration {before after : List Item} {d d' : Declaration}
      (h : d.Moved c d') :
      Moved c ⟨before ++ .declaration d :: after⟩
        ⟨before ++ .declaration d' :: after⟩

end ModelText
