import ModelText.Decimal.Shortest

/-!
# Writing decimals

Two styles are in use. Trees and tokens write a decimal plainly: all digits
in their places, no power of ten, and no point behind a whole number. Messages
that compare a value with a type write it so that it is seen to be a decimal: a
whole number keeps `.0`, and a very great or very small number is written with
a power of ten. Both write the fewest digits that read back.
-/

namespace ModelText

namespace Decimal

/-- What a style decides beyond the digits. -/
structure Style where
  /-- Whether a whole number is written with `.0`. -/
  wholeMark : Bool
  /-- The lengths of the part before the point for which a number is written
  in positions: above the first and up to the second. `none` is any length. -/
  positional : Option (Int × Int)

/-- Plain writing, for tokens, values and trees. -/
def plain : Style := ⟨false, none⟩

/-- Writing that shows a decimal as one: positions from `1e-4` on and below
`1e16`. -/
def explicit : Style := ⟨true, some (-4, 16)⟩

/-- Digits in their places; the point stands `length` digits behind the start
of the digits. -/
def positionalText (wholeMark : Bool) (digits : List Char) (length : Int) :
    List Char :=
  if length ≤ 0 then
    '0' :: '.' :: (List.replicate (-length).toNat '0' ++ digits)
  else if digits.length ≤ length.toNat then
    digits ++ List.replicate (length.toNat - digits.length) '0' ++
      (if wholeMark then ['.', '0'] else [])
  else digits.take length.toNat ++ '.' :: digits.drop length.toNat

/-- One digit before the point, the others behind it, and a power of ten. -/
def scientificText (digits : List Char) (length : Int) : List Char :=
  let mantissa := match digits with
    | [] => []
    | [d] => [d]
    | d :: rest => d :: '.' :: rest
  mantissa ++ 'e' :: (toString (length - 1)).toList

/-- A finite value without its sign. -/
def magnitudeText (style : Style) (significand : Nat) (exponent : Int) :
    List Char :=
  if significand = 0 then '0' :: (if style.wholeMark then ['.', '0'] else [])
  else
    let d := shortest significand exponent
    let digits := Nat.toDigits 10 d.digits
    let length : Int := digits.length + d.exponent
    match style.positional with
    | none => positionalText style.wholeMark digits length
    | some (low, high) =>
      if low < length ∧ length ≤ high then
        positionalText style.wholeMark digits length
      else scientificText digits length

/-- Writes a value. -/
def write (style : Style) : Decimal → String
  | .notANumber => "NaN"
  | .infinite negative => if negative then "-inf" else "inf"
  | .finite negative significand exponent =>
    let sign := if negative then ['-'] else []
    String.ofList (sign ++ magnitudeText style significand exponent)

/-- The plain text of a value. -/
def text (d : Decimal) : String := d.write plain

end Decimal

end ModelText
