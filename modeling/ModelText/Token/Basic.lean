import ModelText.Decimal.Writer
import ModelText.Text.Number
import ModelText.Text.Quoted
import ModelText.Text.Span

/-!
# Tokens

The words of a source unit: keywords, names, numbers, strings and marks.
Blanks and comments are no tokens. `Token.text` writes a token the way
messages name it; apart from the spelling of numbers and strings this is the
way it stands in the source.
-/

namespace ModelText

/-- The words that are not names. -/
inductive Keyword where
  | language
  | importUnit
  | trueWord
  | falseWord
  deriving DecidableEq

namespace Keyword

/-- The spelling of a keyword. -/
def text : Keyword → String
  | .language => "language"
  | .importUnit => "import"
  | .trueWord => "true"
  | .falseWord => "false"

/-- All keywords. -/
def all : List Keyword := [.language, .importUnit, .trueWord, .falseWord]

/-- The keyword with a given spelling. -/
def ofText? (word : String) : Option Keyword := all.find? (·.text = word)

end Keyword

/-- The marks between words. -/
inductive Mark where
  | leftBrace
  | rightBrace
  | leftBracket
  | rightBracket
  | leftParen
  | rightParen
  /-- Opens a record. -/
  | recordOpen
  | equals
  | colon
  | dot
  | comma
  | semicolon
  deriving DecidableEq

namespace Mark

/-- The spelling of a mark. -/
def text : Mark → String
  | .leftBrace => "\x7b"
  | .rightBrace => "\x7d"
  | .leftBracket => "["
  | .rightBracket => "]"
  | .leftParen => "("
  | .rightParen => ")"
  | .recordOpen => "#("
  | .equals => "="
  | .colon => ":"
  | .dot => "."
  | .comma => ","
  | .semicolon => ";"

/-- The mark that is written with one given character. -/
def ofChar? : Char → Option Mark
  | '{' => some .leftBrace
  | '}' => some .rightBrace
  | '[' => some .leftBracket
  | ']' => some .rightBracket
  | '(' => some .leftParen
  | ')' => some .rightParen
  | '=' => some .equals
  | ':' => some .colon
  | '.' => some .dot
  | ',' => some .comma
  | ';' => some .semicolon
  | _ => none

end Mark

/-- A word of a source unit. -/
inductive Token where
  | keyword (word : Keyword)
  | identifier (name : String)
  | integer (value : Int64)
  | decimal (value : Decimal)
  | string (content : String)
  | mark (mark : Mark)
  deriving DecidableEq

/-- A token as messages write it. -/
def Token.text : Token → String
  | .keyword k => k.text
  | .identifier name => name
  | .integer value => Text.ofInt value.toInt
  | .decimal value => value.text
  | .string content => Text.quoted content
  | .mark m => m.text

end ModelText
