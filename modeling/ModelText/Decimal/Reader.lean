import ModelText.Decimal.Basic

/-!
# Reading decimals

A written decimal is an optional sign, digits with an optional point among or
beside them, and an optional power of ten; at least one digit stands before the
power. `inf`, `infinity` and `nan`, in capitals or not, name the values that
have no digits. `Decimal.ofString?` reads exactly these texts, and the value is
the nearest one.
-/

namespace ModelText

namespace Decimal

/-- The number written by decimal digits, most significant first. -/
def digitsValue (digits : List Char) : Nat :=
  digits.foldl (fun n c => 10 * n + (c.toNat - '0'.toNat)) 0

/-- A power of ten behind its `e`: an optional sign and at least one digit. -/
def readPower? (cs : List Char) : Option Int :=
  let (negative, digits) := match cs with
    | '+' :: rest => (false, rest)
    | '-' :: rest => (true, rest)
    | _ => (false, cs)
  if digits.isEmpty || !digits.all Char.isDigit then none
  else some (if negative then -(digitsValue digits : Int)
    else digitsValue digits)

/-- What follows the digits of a number: nothing, or a power of ten. -/
def readSuffix? : List Char → Option Int
  | [] => some 0
  | c :: rest => if c = 'e' ∨ c = 'E' then readPower? rest else none

/-- Digits with an optional point and an optional power of ten. -/
def readUnsigned? (negative : Bool) (cs : List Char) : Option Decimal :=
  let whole := cs.takeWhile Char.isDigit
  let (fraction, rest) := match cs.dropWhile Char.isDigit with
    | '.' :: rest => (rest.takeWhile Char.isDigit, rest.dropWhile Char.isDigit)
    | rest => ([], rest)
  if (whole ++ fraction).isEmpty then none
  else (readSuffix? rest).map fun power =>
    ofDigits negative (digitsValue (whole ++ fraction))
      (power - fraction.length)

/-- A number behind its sign, or the name of a value without digits. -/
def readMagnitude? (negative : Bool) (cs : List Char) : Option Decimal :=
  let word := cs.map Char.toLower
  if word = ['i', 'n', 'f'] ∨ word = ['i', 'n', 'f', 'i', 'n', 'i', 't', 'y']
  then some (.infinite negative)
  else if word = ['n', 'a', 'n'] then some .notANumber
  else readUnsigned? negative cs

/-- Reads a decimal from its characters. -/
def ofChars? : List Char → Option Decimal
  | '-' :: rest => readMagnitude? true rest
  | '+' :: rest => readMagnitude? false rest
  | cs => readMagnitude? false cs

/-- Reads a decimal from a text. -/
def ofString? (text : String) : Option Decimal := ofChars? text.toList

end Decimal

end ModelText
