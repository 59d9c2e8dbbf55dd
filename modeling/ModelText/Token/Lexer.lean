import ModelText.Decimal.Reader
import ModelText.Diagnostic.Collector
import ModelText.Token.Basic

/-!
# Reading tokens

`Token.scan` cuts a text into pieces: blanks and comments, tokens, and faults.
After a fault it goes on one character behind the place where reading stopped,
so that all faults of a text are found at once. A piece is described by how
many characters it takes, and the pieces together take every character of the
text once.

The longest word is read first, and a keyword is a keyword only as a whole
word. A number must not run into a letter.
-/

namespace ModelText

namespace Token

/-- A character of names, apart from their first. -/
def isNameChar (c : Char) : Bool := c.isAlphanum || c == '_'

/-- The first character of a name. -/
def isNameStart (c : Char) : Bool := c.isAlpha || c == '_'

/-- The characters between words. -/
def isBlank (c : Char) : Bool :=
  c == ' ' || c == '\t' || c == '\r' || c == '\n'

/-- The number of leading characters of a kind. -/
def countWhile (kind : Char → Bool) (cs : List Char) : Nat :=
  (cs.takeWhile kind).length

/-- The number of bytes of a text. -/
def byteLength : List Char → Nat
  | [] => 0
  | c :: rest => c.utf8Size + byteLength rest

@[simp] theorem byteLength_nil : byteLength [] = 0 := rfl

@[simp] theorem byteLength_cons (c : Char) (rest : List Char) :
    byteLength (c :: rest) = c.utf8Size + byteLength rest := rfl

theorem byteLength_append (cs ds : List Char) :
    byteLength (cs ++ ds) = byteLength cs + byteLength ds := by
  induction cs with
  | nil => simp
  | cons c cs ih => simp [ih, Nat.add_assoc]

/-! ### Numbers -/

/-- The length of a point and digits, or zero. -/
def fractionLength : List Char → Nat
  | '.' :: rest =>
    let digits := countWhile Char.isDigit rest
    if digits = 0 then 0 else digits + 1
  | _ => 0

/-- The length of a sign, or zero. -/
def signLength : List Char → Nat
  | c :: _ => if c = '+' ∨ c = '-' then 1 else 0
  | [] => 0

/-- The length of a power of ten, or zero. -/
def powerLength : List Char → Nat
  | c :: rest =>
    if c = 'e' ∨ c = 'E' then
      let sign := signLength rest
      let digits := countWhile Char.isDigit (rest.drop sign)
      if digits = 0 then 0 else 1 + sign + digits
    else 0
  | [] => 0

/-- The length of a number, or zero. A point or an `e` without digits behind it
is not part of the number. -/
def numberLength (cs : List Char) : Nat :=
  let sign := match cs with
    | '-' :: _ => 1
    | _ => 0
  let digits := countWhile Char.isDigit (cs.drop sign)
  if digits = 0 then 0
  else
    let whole := sign + digits
    let fraction := fractionLength (cs.drop whole)
    whole + fraction + powerLength (cs.drop (whole + fraction))

/-- The integer written by an optional minus sign and digits. -/
def integerValue : List Char → Int
  | '-' :: digits => -(Decimal.digitsValue digits : Int)
  | digits => Decimal.digitsValue digits

/-- The token of a written number: a decimal if there is a point or a power of
ten in it, else an integer if it has 64 bits. -/
def ofNumber? (cs : List Char) : Option Token :=
  if cs.any fun c => c == '.' || c == 'e' || c == 'E' then
    (Decimal.ofChars? cs).map .decimal
  else
    let value := integerValue cs
    if Int64.minValue.toInt ≤ value ∧ value ≤ Int64.maxValue.toInt then
      some (.integer (Int64.ofInt value))
    else none

/-! ### Strings -/

/-- What stands behind a backslash: its length as far as it was read, and the
character it stands for, if it stands for one. -/
structure Escape where
  /-- The number of characters behind the backslash. -/
  length : Nat
  /-- The character written by the escape. -/
  char? : Option Char

/-- The character that a backslash and one letter stand for. -/
def letterEscape? : Char → Option Char
  | 'n' => some '\n'
  | 'r' => some '\r'
  | 't' => some '\t'
  | '0' => some '\x00'
  | '\\' => some '\\'
  | '"' => some '"'
  | '\'' => some '\''
  | _ => none

/-- Whether a character is a hexadecimal digit. -/
def isHexDigit (c : Char) : Bool :=
  c.isDigit || ('a' ≤ c && c ≤ 'f') || ('A' ≤ c && c ≤ 'F')

/-- The value of a hexadecimal digit. -/
def hexDigitValue (c : Char) : Nat :=
  if c.isDigit then c.toNat - '0'.toNat
  else if 'a' ≤ c then c.toNat - 'a'.toNat + 10
  else c.toNat - 'A'.toNat + 10

/-- The number written by hexadecimal digits. -/
def hexValue (digits : List Char) : Nat :=
  digits.foldl (fun n c => 16 * n + hexDigitValue c) 0

/-- The character with a given number. -/
def charOfNumber? (n : Nat) : Option Char :=
  if n.isValidChar then some (Char.ofNat n) else none

/-- Reads an escape by number, behind its `u`: one to six hexadecimal digits
in braces. A number that belongs to no character is refused as a whole. -/
def numberEscape : List Char → Escape
  | '{' :: rest =>
    let digits := (rest.take 6).takeWhile isHexDigit
    if digits.isEmpty then ⟨2, none⟩
    else if (rest.drop digits.length).head? = some '}' then
      match charOfNumber? (hexValue digits) with
      | some c => ⟨digits.length + 3, some c⟩
      | none => ⟨0, none⟩
    else ⟨digits.length + 2, none⟩
  | _ => ⟨1, none⟩

/-- Reads what stands behind a backslash. -/
def escape : List Char → Escape
  | [] => ⟨0, none⟩
  | c :: rest =>
    if c = 'u' then numberEscape rest
    else match letterEscape? c with
      | some c => ⟨1, some c⟩
      | none => ⟨0, none⟩

/-- What ends the content of a string: its closing mark, the end of the line
or the text, or an escape that is refused after some characters. -/
inductive StringEnd where
  | closed
  | unclosed
  | badEscape (length : Nat)
  deriving DecidableEq

/-- The content of a string and what ends it. -/
structure StringBody where
  /-- The characters the content stands for. -/
  content : List Char
  /-- The number of characters the content is written with. -/
  length : Nat
  /-- What follows the content. -/
  ending : StringEnd

/-- A content that begins with the character `c`, written with `length`
characters. -/
def StringBody.cons (c : Char) (length : Nat) (body : StringBody) :
    StringBody :=
  ⟨c :: body.content, length + body.length, body.ending⟩

/-- Reads the content of a string behind its opening mark. -/
def stringBody : List Char → StringBody
  | [] => ⟨[], 0, .unclosed⟩
  | c :: rest =>
    if c = '"' then ⟨[], 0, .closed⟩
    else if c = '\n' ∨ c = '\r' then ⟨[], 0, .unclosed⟩
    else if c = '\\' then
      match escape rest with
      | ⟨length, some value⟩ =>
        (stringBody (rest.drop length)).cons value (length + 1)
      | ⟨length, none⟩ => ⟨[], 0, .badEscape length⟩
    else (stringBody rest).cons c 1
termination_by cs => cs.length
decreasing_by all_goals simp only [List.length_drop, List.length_cons]; omega

/-! ### Pieces -/

/-- What can be wrong with a piece of text. -/
inductive LexicalFault where
  | unexpectedCharacter
  | unterminatedString
  | invalidEscape
  | numberOutOfRange
  deriving DecidableEq

/-- What a piece of text is. A fault is found at the characters from `start`
up to `stop`, counted from the start of the piece. -/
inductive Piece where
  /-- Blanks or a comment. -/
  | blank
  | token (token : Token)
  | fault (fault : LexicalFault) (start stop : Nat)

/-- A piece at the start of a text, and the number of characters behind its
first one. -/
structure Reading where
  /-- What the piece is. -/
  piece : Piece
  /-- The number of characters after the first. -/
  more : Nat

/-- A fault in the first `stop` characters. Reading goes on behind the
character after them. -/
def Reading.fault (fault : LexicalFault) (start stop : Nat) : Reading :=
  ⟨.fault fault start stop, stop⟩

/-- Reads a string behind its opening mark. -/
def readString (rest : List Char) : Reading :=
  let body := stringBody rest
  match body.ending with
  | .closed => ⟨.token (.string (String.ofList body.content)), body.length + 1⟩
  | .unclosed => .fault .unterminatedString 0 (body.length + 1)
  | .badEscape length =>
    .fault .invalidEscape (body.length + 1) (body.length + 2 + length)

/-- The token of a word. -/
def ofWord (word : String) : Token :=
  match Keyword.ofText? word with
  | some k => .keyword k
  | none => .identifier word

/-- Reads a mark, or finds a character that begins nothing. -/
def readMark (c : Char) (rest : List Char) : Reading :=
  if c = '#' ∧ rest.head? = some '(' then ⟨.token (.mark .recordOpen), 1⟩
  else match Mark.ofChar? c with
    | some m => ⟨.token (.mark m), 0⟩
    | none => .fault .unexpectedCharacter 0 0

/-- Reads a number of the given length at the start of a text. -/
def readNumber (cs : List Char) (length : Nat) : Reading :=
  match ofNumber? (cs.take length) with
  | some t => ⟨.token t, length - 1⟩
  | none => .fault .numberOutOfRange 0 length

/-- Whether a name could go on at the start of a text. -/
def continuesName (cs : List Char) : Bool := cs.head?.any isNameChar

/-- Reads the first piece of a text that begins with `c`. -/
def read (c : Char) (rest : List Char) : Reading :=
  let number := numberLength (c :: rest)
  if isBlank c then ⟨.blank, countWhile isBlank rest⟩
  else if c = '/' ∧ rest.head? = some '/' then
    ⟨.blank, countWhile (· != '\n') rest⟩
  else if c = '"' then readString rest
  else if number ≠ 0 && !continuesName ((c :: rest).drop number) then
    readNumber (c :: rest) number
  else if isNameStart c then
    ⟨.token (ofWord (String.ofList (c :: rest.takeWhile isNameChar))),
      countWhile isNameChar rest⟩
  else readMark c rest

/-- A piece and the characters it takes. -/
structure Cut where
  /-- What the piece is. -/
  piece : Piece
  /-- Its characters. -/
  chars : List Char

/-- Cuts a text into its pieces. -/
def cuts : List Char → List Cut
  | [] => []
  | c :: rest =>
    match read c rest with
    | ⟨piece, more⟩ =>
      ⟨piece, c :: rest.take more⟩ :: cuts (rest.drop more)
termination_by cs => cs.length
decreasing_by simp only [List.length_drop, List.length_cons]; omega

/-! ### The result of reading -/

/-- A fault and its place. -/
structure LexicalError where
  /-- What is wrong. -/
  fault : LexicalFault
  /-- Where it is wrong. -/
  span : Span
  deriving DecidableEq

/-- What reading makes of a piece: nothing, a token, or an error. -/
inductive Lexeme where
  | blank
  | token (token : Spanned Token)
  | error (error : LexicalError)

/-- The place of a fault: at least one byte from its start. -/
def faultSpan (offset : Nat) (chars : List Char) (start stop : Nat) : Span :=
  let first := offset + byteLength (chars.take start)
  Span.between first (max (offset + byteLength (chars.take stop)) (first + 1))

/-- A piece at its place in the text. -/
def Cut.lexeme (offset : Nat) (cut : Cut) : Lexeme :=
  match cut.piece with
  | .blank => .blank
  | .token t =>
    .token ⟨t, Span.between offset (offset + byteLength cut.chars)⟩
  | .fault fault start stop =>
    .error ⟨fault, faultSpan offset cut.chars start stop⟩

/-- The pieces of a text at their places, from a given offset on. -/
def place (offset : Nat) : List Cut → List Lexeme
  | [] => []
  | cut :: rest =>
    cut.lexeme offset :: place (offset + byteLength cut.chars) rest

/-- Everything that reading makes of a text. -/
def lexemes (source : String) : List Lexeme := place 0 (cuts source.toList)

/-- The tokens among the pieces of a text. -/
def tokensOf (lexemes : List Lexeme) : List (Spanned Token) :=
  lexemes.filterMap fun
    | .token t => some t
    | _ => none

/-- The errors among the pieces of a text. -/
def errorsOf (lexemes : List Lexeme) : List LexicalError :=
  lexemes.filterMap fun
    | .error e => some e
    | _ => none

/-- Reads the tokens of a text, or finds all errors in it. -/
def scan (source : String) : Except (List LexicalError) (List (Spanned Token)) :=
  let pieces := lexemes source
  if (errorsOf pieces).isEmpty then .ok (tokensOf pieces)
  else .error (errorsOf pieces)

end Token

namespace Token.LexicalFault

/-- A fault in words. -/
def message : LexicalFault → String
  | .unexpectedCharacter => "unexpected character"
  | .unterminatedString => "unterminated string literal"
  | .invalidEscape => "invalid escape sequence"
  | .numberOutOfRange => "number literal out of range"

/-- What is written beside the place of a fault. -/
def label : LexicalFault → String
  | .unexpectedCharacter => "not valid in Simon source"
  | fault => fault.message

/-- An advice on how to mend a fault. -/
def help : LexicalFault → Option String
  | .unexpectedCharacter => none
  | .unterminatedString =>
    some "add a closing `\"` before the end of the line"
  | .invalidEscape =>
    some ("valid escapes: `\\n`, `\\r`, `\\t`, `\\0`, `\\\\`, `\\\"`, `\\'`, " ++
      "`\\u\x7bXXXX\x7d`")
  | .numberOutOfRange =>
    some "integer literals must fit in a signed 64-bit integer"

end Token.LexicalFault

/-- What is told about an error; every error of this stage is fatal. -/
def Token.LexicalError.diagnostic (e : Token.LexicalError) : Diagnostic where
  severity := .fatal
  category := .syntaxError
  message := e.fault.message
  labels := [⟨e.span, e.fault.label, true⟩]
  help := e.fault.help

end ModelText
