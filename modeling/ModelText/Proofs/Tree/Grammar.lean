import ModelText.Tree.Parser

/-!
# The grammar of source units

The rules by which tokens make up a unit, as relations between the tokens from
some place on, the part of the tree they stand for, and the tokens behind it:

    unit         item*
    item         ('language' IDENT | 'import' (path | STRING)
                 | declaration) ';'?
    declaration  header IDENT? body? ';'?
    header       ('[' (IDENT ','?)+ ']')? IDENT
    body         '{' (member ';'?)* '}'
    member       IDENT '=' literal | IDENT ':' path
                 | IDENT ':' literal, which is no IDENT
                 | IDENT '{' declaration* '}'
    path         IDENT ('.' IDENT)*
    literal      INT | DECIMAL | STRING | 'true' | 'false' | IDENT
                 | '#(' (IDENT ('=' | ':') literal ','?)* ')'

The rules are ambiguous. In `A B C` the second word may be the name of the first
declaration or the type word of another one, and a semicolon behind a
declaration may belong to it or to the item. So each rule comes in two readings.
If `greedy` is false, whatever is optional may be left out anywhere. If it is
true, a name, a body, a comma or a semicolon is left out only where the next
token is not one that it could begin with. Nothing is asked of the repetitions:
where they end follows from what has to come behind them.
-/

namespace ModelText

/-- The token that comes next. -/
def Tokens.next? (ts : Tokens) : Option Token := ts.head?.map (·.value)

@[simp, grind =] theorem Tokens.next?_nil : Tokens.next? [] = none := rfl

@[simp, grind =] theorem Tokens.next?_cons (t : Spanned Token) (ts : Tokens) :
    Tokens.next? (t :: ts) = some t.value := rfl

theorem Tokens.next?_eq_none {ts : Tokens} : ts.next? = none ↔ ts = [] := by
  cases ts <;> simp

theorem Tokens.next?_eq_some {ts : Tokens} {token : Token} :
    ts.next? = some token ↔ ∃ span rest, ts = ⟨token, span⟩ :: rest := by
  cases ts with
  | nil => simp
  | cons t rest =>
    obtain ⟨value, span⟩ := t
    simp

namespace Grammar

/-- `m?` -/
inductive OptionalMark (greedy : Prop) (m : Mark) : Tokens → Tokens → Prop
  | taken (span : Span) (rest : Tokens) :
      OptionalMark greedy m (⟨.mark m, span⟩ :: rest) rest
  | omitted (rest : Tokens) (h : greedy → rest.next? ≠ some (.mark m)) :
      OptionalMark greedy m rest rest

/-- `IDENT?` -/
inductive OptionalName (greedy : Prop) :
    Tokens → Option (Spanned String) → Tokens → Prop
  | taken (name : String) (span : Span) (rest : Tokens) :
      OptionalName greedy (⟨.identifier name, span⟩ :: rest)
        (some ⟨name, span⟩) rest
  | omitted (rest : Tokens)
      (h : greedy → ∀ name, rest.next? ≠ some (.identifier name)) :
      OptionalName greedy rest none rest

/-- `('.' IDENT)*` -/
inductive PathTail : Tokens → List (Spanned String) → Tokens → Prop
  | nil (rest : Tokens) : PathTail rest [] rest
  | cons {dot span : Span} {name : String} {names : List (Spanned String)}
      {rest rest' : Tokens} (h : PathTail rest names rest') :
      PathTail (⟨.mark .dot, dot⟩ :: ⟨.identifier name, span⟩ :: rest)
        (⟨name, span⟩ :: names) rest'

/-- `path` -/
inductive Path : Tokens → Spanned (List String) → Tokens → Prop
  | intro {first : String} {span : Span} {others : List (Spanned String)}
      {rest rest' : Tokens} (h : PathTail rest others rest') :
      Path (⟨.identifier first, span⟩ :: rest)
        (Parser.joinPath ⟨first, span⟩ others) rest'

/-- The literals that are single tokens. -/
inductive SimpleLiteral : Token → ModelText.Literal → Prop
  | integer (value : Int64) : SimpleLiteral (.integer value) (.integer value)
  | decimal (value : Decimal) : SimpleLiteral (.decimal value) (.decimal value)
  | string (content : String) :
      SimpleLiteral (.string content) (.string content)
  | yes : SimpleLiteral (.keyword .trueWord) (.boolean true)
  | no : SimpleLiteral (.keyword .falseWord) (.boolean false)
  | identifier (name : String) :
      SimpleLiteral (.identifier name) (.identifier name)

mutual

/-- `literal` -/
inductive Literal (greedy : Prop) :
    Tokens → Spanned ModelText.Literal → Tokens → Prop
  | simple {token : Token} {value : ModelText.Literal} (span : Span)
      (rest : Tokens) (h : SimpleLiteral token value) :
      Literal greedy (⟨token, span⟩ :: rest) ⟨value, span⟩ rest
  | record {opening closing : Span} {fields : List Field}
      {rest rest' : Tokens}
      (h : Fields greedy rest fields (⟨.mark .rightParen, closing⟩ :: rest')) :
      Literal greedy (⟨.mark .recordOpen, opening⟩ :: rest)
        ⟨.record fields, opening.union closing⟩ rest'

/-- `(IDENT ('=' | ':') literal ','?)*` -/
inductive Fields (greedy : Prop) : Tokens → List Field → Tokens → Prop
  | nil (rest : Tokens) : Fields greedy rest [] rest
  | cons {name : String} {span span' : Span} {sign : Mark}
      {value : Spanned ModelText.Literal} {fields : List Field}
      {rest rest₁ rest₂ rest₃ : Tokens}
      (hs : sign = .equals ∨ sign = .colon)
      (hv : Literal greedy rest value rest₁)
      (hc : OptionalMark greedy .comma rest₁ rest₂)
      (h : Fields greedy rest₂ fields rest₃) :
      Fields greedy
        (⟨.identifier name, span⟩ :: ⟨.mark sign, span'⟩ :: rest)
        (⟨⟨name, span⟩, value⟩ :: fields) rest₃

end

theorem Literal.ne_identifier {greedy : Prop} {ts out : Tokens}
    {value : Spanned ModelText.Literal} (h : Literal greedy ts value out)
    (hn : ∀ name, ts.next? ≠ some (.identifier name)) :
    ∀ name, value.value ≠ .identifier name := by
  intro name hv
  cases h with
  | simple _ _ hs =>
    cases hs with
    | identifier word => exact hn word rfl
    | _ => cases hv
  | record _ => cases hv

/-- `(IDENT ','?)*` -/
inductive ModifierNames (greedy : Prop) :
    Tokens → List (Spanned String) → Tokens → Prop
  | nil (rest : Tokens) : ModifierNames greedy rest [] rest
  | cons {name : String} {span : Span} {names : List (Spanned String)}
      {rest rest₁ rest₂ : Tokens}
      (hc : OptionalMark greedy .comma rest rest₁)
      (h : ModifierNames greedy rest₁ names rest₂) :
      ModifierNames greedy (⟨.identifier name, span⟩ :: rest)
        (⟨name, span⟩ :: names) rest₂

/-- `header`, with its modifiers and its type word -/
inductive Header (greedy : Prop) :
    Tokens → List (Spanned String) → Spanned String → Tokens → Prop
  | plain (word : String) (span : Span) (rest : Tokens) :
      Header greedy (⟨.identifier word, span⟩ :: rest) [] ⟨word, span⟩ rest
  | modified {names : List (Spanned String)} {word : String}
      {opening closing span : Span} {rest rest' : Tokens} (hn : names ≠ [])
      (h : ModifierNames greedy rest names
        (⟨.mark .rightBracket, closing⟩ :: ⟨.identifier word, span⟩ ::
          rest')) :
      Header greedy (⟨.mark .leftBracket, opening⟩ :: rest) names
        ⟨word, span⟩ rest'

mutual

/-- `body?`, with the place of the braces -/
inductive OptionalBody (greedy : Prop) :
    Tokens → List ModelText.Member → Option Span → Tokens → Prop
  | taken {opening closing : Span} {members : List ModelText.Member}
      {rest rest' : Tokens}
      (h : Members greedy rest members
        (⟨.mark .rightBrace, closing⟩ :: rest')) :
      OptionalBody greedy (⟨.mark .leftBrace, opening⟩ :: rest) members
        (some (opening.union closing)) rest'
  | omitted (rest : Tokens)
      (h : greedy → rest.next? ≠ some (.mark .leftBrace)) :
      OptionalBody greedy rest [] none rest

/-- `(member ';'?)*` -/
inductive Members (greedy : Prop) :
    Tokens → List ModelText.Member → Tokens → Prop
  | nil (rest : Tokens) : Members greedy rest [] rest
  | cons {m : ModelText.Member} {ms : List ModelText.Member}
      {ts rest₁ rest₂ rest₃ : Tokens} (hm : Member greedy ts m rest₁)
      (hs : OptionalMark greedy .semicolon rest₁ rest₂)
      (h : Members greedy rest₂ ms rest₃) :
      Members greedy ts (m :: ms) rest₃

/-- `member` -/
inductive Member (greedy : Prop) :
    Tokens → ModelText.Member → Tokens → Prop
  | slot {name : String} {span span' : Span}
      {value : Spanned ModelText.Literal} {rest rest' : Tokens}
      (h : Literal greedy rest value rest') :
      Member greedy
        (⟨.identifier name, span⟩ :: ⟨.mark .equals, span'⟩ :: rest)
        (.slot ⟨name, span⟩ value) rest'
  | link {name : String} {span span' : Span} {path : Spanned (List String)}
      {rest rest' : Tokens} (h : Path rest path rest') :
      Member greedy
        (⟨.identifier name, span⟩ :: ⟨.mark .colon, span'⟩ :: rest)
        (.link ⟨name, span⟩ path) rest'
  | value {name : String} {span span' : Span}
      {value : Spanned ModelText.Literal} {rest rest' : Tokens}
      (hn : ∀ word, value.value ≠ .identifier word)
      (h : Literal greedy rest value rest') :
      Member greedy
        (⟨.identifier name, span⟩ :: ⟨.mark .colon, span'⟩ :: rest)
        (.slot ⟨name, span⟩ value) rest'
  | block {name : String} {span opening closing : Span}
      {ds : List ModelText.Declaration} {rest rest' : Tokens}
      (h : Declarations greedy rest ds
        (⟨.mark .rightBrace, closing⟩ :: rest')) :
      Member greedy
        (⟨.identifier name, span⟩ :: ⟨.mark .leftBrace, opening⟩ :: rest)
        (.block ⟨name, span⟩ ds (opening.union closing)) rest'

/-- `declaration*` -/
inductive Declarations (greedy : Prop) :
    Tokens → List ModelText.Declaration → Tokens → Prop
  | nil (rest : Tokens) : Declarations greedy rest [] rest
  | cons {d : ModelText.Declaration} {ds : List ModelText.Declaration}
      {ts rest rest' : Tokens} (hd : Declaration greedy ts d rest)
      (h : Declarations greedy rest ds rest') :
      Declarations greedy ts (d :: ds) rest'

/-- `declaration` -/
inductive Declaration (greedy : Prop) :
    Tokens → ModelText.Declaration → Tokens → Prop
  | intro {modifiers : List (Spanned String)} {typeWord : Spanned String}
      {name : Option (Spanned String)} {members : List ModelText.Member}
      {braces : Option Span} {ts rest₁ rest₂ rest₃ rest₄ : Tokens}
      (hh : Header greedy ts modifiers typeWord rest₁)
      (hn : OptionalName greedy rest₁ name rest₂)
      (hb : OptionalBody greedy rest₂ members braces rest₃)
      (hs : OptionalMark greedy .semicolon rest₃ rest₄) :
      Declaration greedy ts
        ⟨modifiers, typeWord, name, members,
          braces.elim (headerSpan typeWord name) typeWord.span.union⟩ rest₄

end

/-- `'language' IDENT | 'import' (path | STRING) | declaration` -/
inductive Item (greedy : Prop) : Tokens → ModelText.Item → Tokens → Prop
  | language (word span : Span) (name : String) (rest : Tokens) :
      Item greedy
        (⟨.keyword .language, word⟩ :: ⟨.identifier name, span⟩ :: rest)
        (.language ⟨name, span⟩) rest
  | importPath {word : Span} {path : Spanned (List String)}
      {rest rest' : Tokens} (h : Path rest path rest') :
      Item greedy (⟨.keyword .importUnit, word⟩ :: rest)
        (.importUnit (path.map (".".intercalate ·))) rest'
  | importText (word span : Span) (name : String) (rest : Tokens) :
      Item greedy
        (⟨.keyword .importUnit, word⟩ :: ⟨.string name, span⟩ :: rest)
        (.importUnit ⟨name, span⟩) rest
  | declaration {d : ModelText.Declaration} {ts rest : Tokens}
      (h : Declaration greedy ts d rest) :
      Item greedy ts (.declaration d) rest

/-- `(item ';'?)*` -/
inductive Items (greedy : Prop) :
    Tokens → List ModelText.Item → Tokens → Prop
  | nil (rest : Tokens) : Items greedy rest [] rest
  | cons {i : ModelText.Item} {is : List ModelText.Item}
      {ts rest₁ rest₂ rest₃ : Tokens} (hi : Item greedy ts i rest₁)
      (hs : OptionalMark greedy .semicolon rest₁ rest₂)
      (h : Items greedy rest₂ is rest₃) :
      Items greedy ts (i :: is) rest₃

/-- `unit`: items, and nothing behind them -/
def SourceTree (greedy : Prop) (ts : Tokens) (tree : ModelText.SourceTree) :
    Prop :=
  Items greedy ts tree.items []

end Grammar

end ModelText
