import ModelText.Text.Combining
import ModelText.Text.Unprintable

/-!
# Quoted strings

`quoted` writes a string the way messages and trees show it: between quotation
marks, on one line, and so that no two strings look alike. A mark, a backslash
and the usual controls are written with a backslash, every other character
that cannot be seen by itself by its number, and all else as it is. An
apostrophe is left alone.
-/

namespace ModelText.Text

/-- A character by its number, in the form `\u{3b1}`. -/
def numberEscape (c : Char) : List Char :=
  '\\' :: 'u' :: '{' :: (Nat.toDigits 16 c.toNat ++ ['}'])

/-- How one character of a string is written between quotation marks. -/
def quotedChar (c : Char) : List Char :=
  if c = '"' then ['\\', '"']
  else if c = '\\' then ['\\', '\\']
  else if c = '\n' then ['\\', 'n']
  else if c = '\r' then ['\\', 'r']
  else if c = '\t' then ['\\', 't']
  else if c = '\x00' then ['\\', '0']
  else if !isCombining c && isPrintable c then [c]
  else numberEscape c

/-- The characters of a quoted string, with its quotation marks. -/
def quotedChars (s : List Char) : List Char :=
  '"' :: (s.flatMap quotedChar ++ ['"'])

/-- A string between quotation marks. -/
def quoted (s : String) : String := String.ofList (quotedChars s.toList)

end ModelText.Text
