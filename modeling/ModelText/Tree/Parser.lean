import ModelText.Diagnostic.Basic
import ModelText.Token.Basic
import ModelText.Tree.Basic

/-!
# From tokens to a tree

The parser reads one token ahead and never goes back over a token it has taken,
so it stops at the first token that no unit could have at that place. Where a
name, a body, a comma or a semicolon may stand or be left out, it takes what it
finds. `SourceTree.ofTokens` gives the tree or says what was expected and which
tokens were left.

Each step returns the rest of the tokens with the proof that it is no longer
than what the step was given; every loop has taken a token before it goes on.
-/

namespace ModelText

/-- The tokens still to be read. -/
abbrev Tokens := List (Spanned Token)

/-- What can be missing. -/
inductive Expectation where
  | identifier
  | languageName
  | unitName
  | literal
  | colon
  | rightParen
  | fieldOrRightParen
  | rightBracket
  | declarationAfterModifiers
  | rightBrace
  | memberOrRightBrace
  | declarationOrRightBrace
  | memberOperator
  | declaration
  deriving DecidableEq

/-- What was missing, in the words of messages. -/
def Expectation.text : Expectation → String
  | .identifier => "identifier"
  | .languageName => "language name"
  | .unitName => "unit name"
  | .literal => "literal"
  | .colon => "`:`"
  | .rightParen => "`)`"
  | .fieldOrRightParen => "record field or `)`"
  | .rightBracket => "`]`"
  | .declarationAfterModifiers => "declaration after modifiers"
  | .rightBrace => "`\x7d`"
  | .memberOrRightBrace => "member or `\x7d`"
  | .declarationOrRightBrace => "declaration or `\x7d`"
  | .memberOperator => "`=`, `:` or `\x7b`"
  | .declaration => "declaration"

/-- Why tokens are no unit. -/
structure SyntaxError where
  /-- What was expected. -/
  expected : Expectation
  /-- The larger part that was being read, if that says more. -/
  within : Option Expectation
  /-- The tokens from the first one that does not fit. -/
  rest : Tokens

/-- What a step has read from `ts`, and what is left of them. -/
structure Parsed (α : Type) (ts : Tokens) where
  /-- What was read. -/
  value : α
  /-- The tokens behind it. -/
  rest : Tokens
  /-- Nothing is added to the tokens. -/
  length_le : rest.length ≤ ts.length

/-- A step that has read `value` and leaves `rest`. -/
def Parsed.read {α : Type} {ts : Tokens} (value : α) (rest : Tokens)
    (length_le : rest.length ≤ ts.length := by grind) : Parsed α ts :=
  ⟨value, rest, length_le⟩

/-- The outcome of a step. -/
abbrev ParseResult (α : Type) (ts : Tokens) := Except SyntaxError (Parsed α ts)

namespace Parser

/-- Fails at the first of the given tokens. -/
def fail {α : Type} (expected : Expectation) (within : Option Expectation)
    (ts : Tokens) : Except SyntaxError α :=
  .error ⟨expected, within, ts⟩

/-- Takes a mark that has to come next, and answers its place. -/
def mark (m : Mark) (expected : Expectation) (within : Option Expectation)
    (ts : Tokens) : ParseResult Span ts :=
  match ts with
  | t :: rest =>
    if t.value = .mark m then .ok (.read t.span rest)
    else fail expected within (t :: rest)
  | [] => fail expected within []

/-- Steps over a mark if it comes next. -/
def optionalMark (m : Mark) (ts : Tokens) : Parsed Unit ts :=
  match ts with
  | t :: rest =>
    if t.value = .mark m then .read () rest else .read () (t :: rest)
  | [] => .read () []

/-- Takes a name that has to come next. -/
def identifier (within : Option Expectation) (ts : Tokens) :
    ParseResult (Spanned String) ts :=
  match ts with
  | ⟨.identifier name, span⟩ :: rest =>
    .ok (.read ⟨name, span⟩ rest (Nat.le_succ _))
  | ts => fail .identifier within ts

/-- Takes a name if one comes next. -/
def optionalIdentifier (ts : Tokens) : Parsed (Option (Spanned String)) ts :=
  match ts with
  | ⟨.identifier name, span⟩ :: rest =>
    .read (some ⟨name, span⟩) rest (Nat.le_succ _)
  | ts => .read none ts (Nat.le_refl _)

/-- Reads the names of a path behind its first one, each behind a point. -/
def pathTail (within : Option Expectation) (ts : Tokens) :
    ParseResult (List (Spanned String)) ts :=
  match ts with
  | ⟨.mark .dot, _⟩ :: ⟨.identifier name, span⟩ :: rest => do
    let ⟨names, rest, _⟩ ← pathTail within rest
    return .read (⟨name, span⟩ :: names) rest
  | ⟨.mark .dot, _⟩ :: rest => fail .identifier within rest
  | ts => .ok (.read [] ts)
termination_by ts.length

/-- A path and its place, from its names. -/
def joinPath (first : Spanned String) (others : List (Spanned String)) :
    Spanned (List String) :=
  ⟨first.value :: others.map (·.value),
    others.foldl (fun span name => span.union name.span) first.span⟩

/-- The literal of a single token. -/
def simpleLiteral? : Token → Option Literal
  | .integer value => some (.integer value)
  | .decimal value => some (.decimal value)
  | .string content => some (.string content)
  | .keyword .trueWord => some (.boolean true)
  | .keyword .falseWord => some (.boolean false)
  | .identifier name => some (.identifier name)
  | _ => none

mutual

/-- Reads a literal. -/
def literal (ts : Tokens) : ParseResult (Spanned Literal) ts :=
  match ts with
  | [] => fail .literal none []
  | ⟨.mark .recordOpen, opening⟩ :: rest => do
    let ⟨fields, rest, _⟩ ← recordFields rest
    let ⟨closing, rest, _⟩ ←
      mark .rightParen .rightParen (some .fieldOrRightParen) rest
    return .read ⟨.record fields, opening.union closing⟩ rest
  | t :: rest =>
    match simpleLiteral? t.value with
    | some value => .ok (.read ⟨value, t.span⟩ rest)
    | none => fail .literal none (t :: rest)
termination_by ts.length

/-- Reads the fields of a record. -/
def recordFields (ts : Tokens) : ParseResult (List Field) ts :=
  match ts with
  | ⟨.identifier name, span⟩ :: t :: rest =>
    if t.value = .mark .equals ∨ t.value = .mark .colon then do
      let ⟨value, rest, _⟩ ← literal rest
      let ⟨_, rest, _⟩ := optionalMark .comma rest
      let ⟨fields, rest, _⟩ ← recordFields rest
      return .read (⟨⟨name, span⟩, value⟩ :: fields) rest
    else fail .colon none (t :: rest)
  | [⟨.identifier _, _⟩] => fail .colon none []
  | ts => .ok (.read [] ts)
termination_by ts.length
decreasing_by all_goals grind

end

/-- Reads the names of modifiers, each perhaps with a comma behind it. -/
def modifierNames (ts : Tokens) : Parsed (List (Spanned String)) ts :=
  match ts with
  | ⟨.identifier name, span⟩ :: rest =>
    let ⟨_, rest, _⟩ := optionalMark .comma rest
    let ⟨names, rest, _⟩ := modifierNames rest
    .read (⟨name, span⟩ :: names) rest
  | ts => .read [] ts
termination_by ts.length
decreasing_by all_goals grind

/-- The start of a declaration, which takes at least one token. -/
structure Header (ts : Tokens) where
  /-- The modifiers. -/
  modifiers : List (Spanned String)
  /-- The type word. -/
  typeWord : Spanned String
  /-- The tokens behind the type word. -/
  rest : Tokens
  /-- The type word is a token. -/
  length_lt : rest.length < ts.length

/-- A header that has been read and leaves `rest`. -/
def Header.read {ts : Tokens} (modifiers : List (Spanned String))
    (typeWord : Spanned String) (rest : Tokens)
    (length_lt : rest.length < ts.length := by grind) : Header ts :=
  ⟨modifiers, typeWord, rest, length_lt⟩

/-- Reads the start of a declaration. There is no declaration where neither a
type word nor a bracket with a name in it comes next. -/
def header? (ts : Tokens) : Option (Except SyntaxError (Header ts)) :=
  match ts with
  | ⟨.identifier word, span⟩ :: rest => some (.ok (.read [] ⟨word, span⟩ rest))
  | ⟨.mark .leftBracket, _⟩ :: ⟨.identifier tag, span⟩ :: rest => some do
    let ⟨tags, rest, _⟩ := modifierNames (⟨.identifier tag, span⟩ :: rest)
    let ⟨_, rest, _⟩ ← mark .rightBracket .rightBracket none rest
    let ⟨word, rest, _⟩ ← identifier (some .declarationAfterModifiers) rest
    return .read tags word rest
  | _ => none

mutual

/-- Reads declarations as long as they come. -/
def declarations (ts : Tokens) : ParseResult (List Declaration) ts :=
  match header? ts with
  | none => .ok (.read [] ts)
  | some header => do
    let ⟨modifiers, typeWord, rest, _⟩ ← header
    let ⟨d, rest, _⟩ ← declarationRest modifiers typeWord rest
    let ⟨ds, rest, _⟩ ← declarations rest
    return .read (d :: ds) rest
termination_by ts.length
decreasing_by all_goals grind

/-- Reads what follows the type word of a declaration: perhaps a name, perhaps
a body, perhaps a semicolon. -/
def declarationRest (modifiers : List (Spanned String))
    (typeWord : Spanned String) (ts : Tokens) : ParseResult Declaration ts :=
  let ⟨name, rest, h⟩ := optionalIdentifier ts
  match rest, h with
  | ⟨.mark .leftBrace, opening⟩ :: rest, _ => do
    let ⟨members, rest, _⟩ ← members rest
    let ⟨closing, rest, _⟩ ←
      mark .rightBrace .rightBrace (some .memberOrRightBrace) rest
    let ⟨_, rest, _⟩ := optionalMark .semicolon rest
    return .read ⟨modifiers, typeWord, name, members,
      typeWord.span.union (opening.union closing)⟩ rest
  | rest, _ =>
    let ⟨_, rest, _⟩ := optionalMark .semicolon rest
    .ok (.read ⟨modifiers, typeWord, name, [], headerSpan typeWord name⟩ rest)
termination_by ts.length
decreasing_by all_goals grind

/-- Reads members as long as they come. -/
def members (ts : Tokens) : ParseResult (List Member) ts :=
  match ts with
  | ⟨.identifier name, span⟩ :: rest => do
    let ⟨m, rest, _⟩ ← memberRest ⟨name, span⟩ rest
    let ⟨_, rest, _⟩ := optionalMark .semicolon rest
    let ⟨ms, rest, _⟩ ← members rest
    return .read (m :: ms) rest
  | ts => .ok (.read [] ts)
termination_by ts.length
decreasing_by all_goals grind

/-- Reads what follows the name of a member. A name behind a colon begins a
path, any other literal there is a value. -/
def memberRest (name : Spanned String) (ts : Tokens) : ParseResult Member ts :=
  match ts with
  | ⟨.mark .equals, _⟩ :: rest => do
    let ⟨value, rest, _⟩ ← literal rest
    return .read (.slot name value) rest
  | ⟨.mark .colon, _⟩ :: ⟨.identifier first, span⟩ :: rest => do
    let ⟨others, rest, _⟩ ← pathTail none rest
    return .read (.link name (joinPath ⟨first, span⟩ others)) rest
  | ⟨.mark .colon, _⟩ :: rest => do
    let ⟨value, rest, _⟩ ← literal rest
    return .read (.slot name value) rest
  | ⟨.mark .leftBrace, opening⟩ :: rest => do
    let ⟨ds, rest, _⟩ ← declarations rest
    let ⟨closing, rest, _⟩ ←
      mark .rightBrace .rightBrace (some .declarationOrRightBrace) rest
    return .read (.block name ds (opening.union closing)) rest
  | ts => fail .memberOperator none ts
termination_by ts.length

end

/-- Reads the name of a unit: a path, or a string. -/
def unitName (ts : Tokens) : ParseResult (Spanned String) ts :=
  match ts with
  | ⟨.identifier first, span⟩ :: rest => do
    let ⟨others, rest, _⟩ ← pathTail (some .unitName) rest
    return .read ((joinPath ⟨first, span⟩ others).map (".".intercalate ·)) rest
  | ⟨.string name, span⟩ :: rest => .ok (.read ⟨name, span⟩ rest)
  | ts => fail .unitName none ts

/-- Reads items as long as they come. A semicolon may follow each of them. -/
def items (ts : Tokens) : ParseResult (List Item) ts :=
  match ts with
  | ⟨.keyword .language, _⟩ :: rest => do
    let ⟨name, rest, _⟩ ← identifier (some .languageName) rest
    let ⟨_, rest, _⟩ := optionalMark .semicolon rest
    let ⟨others, rest, _⟩ ← items rest
    return .read (.language name :: others) rest
  | ⟨.keyword .importUnit, _⟩ :: rest => do
    let ⟨name, rest, _⟩ ← unitName rest
    let ⟨_, rest, _⟩ := optionalMark .semicolon rest
    let ⟨others, rest, _⟩ ← items rest
    return .read (.importUnit name :: others) rest
  | ts =>
    match header? ts with
    | none => .ok (.read [] ts)
    | some header => do
      let ⟨modifiers, typeWord, rest, _⟩ ← header
      let ⟨d, rest, _⟩ ← declarationRest modifiers typeWord rest
      let ⟨_, rest, _⟩ := optionalMark .semicolon rest
      let ⟨others, rest, _⟩ ← items rest
      return .read (.declaration d :: others) rest
termination_by ts.length
decreasing_by all_goals grind

end Parser

/-- The tree of a unit, from all its tokens. -/
def SourceTree.ofTokens (ts : Tokens) : Except SyntaxError SourceTree := do
  let ⟨items, rest, _⟩ ← Parser.items ts
  if rest.isEmpty then return ⟨items⟩
  else Parser.fail .declaration none rest

/-- What is told about tokens that are no unit: the first token that does not
fit, or the last byte of a text of the given length if all tokens fit. -/
def SyntaxError.diagnostic (e : SyntaxError) (sourceLength : Nat) :
    Diagnostic :=
  let (span, found) := match e.rest with
    | t :: _ => (t.span, "`" ++ t.value.text ++ "`")
    | [] => ((Span.between sourceLength sourceLength).lastByte, "end of input")
  { severity := .fatal
    category := .syntaxError
    message := "expected " ++ e.expected.text ++ ", found " ++ found
    labels := [⟨span, "unexpected token", true⟩]
    help := e.within.map fun part => "while parsing " ++ part.text }

end ModelText
