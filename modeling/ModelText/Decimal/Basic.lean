/-!
# Decimal values

A decimal value is a binary floating-point number: a sign, a significand below
`2^53` and a power of two, or one of the two infinities, or the value that is
no number. Everything is computed on natural numbers, so a value is exact, and
rounding happens in one place only: `ofRatio` takes a quotient to the nearest
value, and a quotient halfway between two values to the one with the even
significand.
-/

namespace ModelText

/-- A decimal value. A finite one is `significand * 2 ^ exponent`, with the
minus sign if `negative`; the sign is kept for zero as well. -/
inductive Decimal where
  | notANumber
  | infinite (negative : Bool)
  | finite (negative : Bool) (significand : Nat) (exponent : Int)
  deriving DecidableEq, Inhabited

namespace Decimal

/-- The number of binary digits of a significand. -/
def precision : Nat := 53

/-- The least exponent. -/
def minExponent : Int := -1074

/-- The greatest exponent. -/
def maxExponent : Int := 971

/-- Zero, of either sign. -/
def zero (negative : Bool) : Decimal := .finite negative 0 minExponent

/-- The quotient of two natural numbers, to the nearest one; a half goes to
the even neighbour. -/
def roundQuotient (num den : Nat) : Nat :=
  let quotient := num / den
  let twice := 2 * (num % den)
  if twice < den then quotient
  else if den < twice then quotient + 1
  else quotient + quotient % 2

/-- A power of two. An exponent below zero counts as zero, so that a factor
stands on one side of a fraction only. -/
def powerOfTwo (exponent : Int) : Nat := Nat.pow 2 exponent.toNat

/-- A power of ten. An exponent below zero counts as zero here too. -/
def powerOfTen (exponent : Int) : Nat := Nat.pow 10 exponent.toNat

/-- The fraction `num / den` divided by `2 ^ exponent`, again as a fraction. -/
def scaleDown (num den : Nat) (exponent : Int) : Nat × Nat :=
  (num * powerOfTwo (-exponent), den * powerOfTwo exponent)

/-- The exponent at which `num / den` has a significand of full precision, or
the least exponent if that one is greater. The lengths of the two numbers tell
it but for one, and a trial tells the rest. -/
def exponentFor (num den : Nat) : Int :=
  let guess : Int := (Nat.log2 num : Int) - Nat.log2 den - precision
  let (n, d) := scaleDown num den guess
  max minExponent (if n / d < powerOfTwo precision then guess else guess + 1)

/-- The value with a given significand and exponent, where rounding may have
carried the significand to one digit too many. -/
def ofSignificand (negative : Bool) (significand : Nat) (exponent : Int) :
    Decimal :=
  if significand = powerOfTwo precision then
    ofNormal negative (powerOfTwo (precision - 1)) (exponent + 1)
  else ofNormal negative significand exponent
where
  /-- Too great an exponent makes the value infinite. -/
  ofNormal (negative : Bool) (significand : Nat) (exponent : Int) : Decimal :=
    if maxExponent < exponent then .infinite negative
    else .finite negative significand exponent

/-- The value nearest to `num / den`. -/
def ofRatio (negative : Bool) (num den : Nat) : Decimal :=
  if num = 0 then zero negative
  else
    let exponent := exponentFor num den
    let (n, d) := scaleDown num den exponent
    ofSignificand negative (roundQuotient n d) exponent

/-- The value nearest to a whole number. -/
def ofInt (i : Int) : Decimal := ofRatio (decide (i < 0)) i.natAbs 1

/-- The value nearest to `digits * 10 ^ exponent`. A number so great or so
small that its length alone decides is not computed. -/
def ofDigits (negative : Bool) (digits : Nat) (exponent : Int) : Decimal :=
  let length : Int := (Nat.toDigits 10 digits).length + exponent
  if digits = 0 then zero negative
  else if length < -330 then zero negative
  else if 310 < length then .infinite negative
  else ofRatio negative (digits * powerOfTen exponent)
    (powerOfTen (-exponent))

end Decimal

end ModelText
