import ModelText.Decimal.Basic

/-!
# The fewest digits that read back

Around each finite value lies an interval of numbers that round to it. Among
the decimal numbers in that interval `shortest` picks one with the fewest
digits, and of those the one nearest to the value; of two equally near ones the
greater. For a given number of digits only the two neighbours of the value on
the grid of that many digits can be the nearest, so the search tries both, for
one digit, two digits, and so on up to seventeen, which always suffice.
-/

namespace ModelText

namespace Decimal

/-- A decimal number `digits * 10 ^ exponent`. -/
structure Digits where
  /-- The digits, as a number. -/
  digits : Nat
  /-- The power of ten. -/
  exponent : Int
  deriving DecidableEq, Inhabited

/-- The interval of numbers that round to a value, all of it measured in
quarters of the last binary place, so that halves and quarters are whole. -/
structure RoundingInterval where
  /-- The lower end. -/
  lower : Nat
  /-- The value itself. -/
  value : Nat
  /-- The upper end. -/
  upper : Nat
  /-- Whether the ends belong to the interval. -/
  closed : Bool

/-- The interval around a significand. Below a power of two the neighbours lie
half as far apart; the ends round to the even side. -/
def RoundingInterval.around (significand : Nat) : RoundingInterval where
  lower :=
    if significand = powerOfTwo (precision - 1) then 4 * significand - 1
    else 4 * significand - 2
  value := 4 * significand
  upper := 4 * significand + 2
  closed := significand % 2 = 0

/-- Whether a number on the same scale lies in the interval. -/
def RoundingInterval.contains (i : RoundingInterval) (num den : Nat) : Bool :=
  if i.closed then i.lower * den ≤ num && num ≤ i.upper * den
  else i.lower * den < num && num < i.upper * den

/-- The number of decimal digits of `num / den`, counted as the power of ten
above it: the least `k` with `num / den < 10 ^ k`, from a lower bound. -/
def decimalLength (num den : Nat) (k : Int) : Nat → Int
  | 0 => k
  | steps + 1 =>
    if num * powerOfTen (-k) < den * powerOfTen k then k
    else decimalLength num den (k + 1) steps

/-- Of the two neighbours of the value on the grid of `10 ^ power`, the one in
the interval, or the nearer one if both are. The value is `num / den`, and
`unit / den` is the scale of the interval. -/
def onGrid? (interval : RoundingInterval) (num den unit : Nat) (power : Int) :
    Option Digits :=
  let step := powerOfTen power * den
  let scale := powerOfTen (-power)
  let low := num * scale / step
  let inside (n : Nat) : Bool := interval.contains (n * step) (unit * scale)
  let nearHigh : Bool := decide ((2 * low + 1) * step ≤ 2 * num * scale)
  if inside low && !(inside (low + 1) && nearHigh) then some ⟨low, power⟩
  else if inside (low + 1) then some ⟨low + 1, power⟩
  else none

/-- The first grid with a hit, from coarse to fine. -/
def searchGrids (interval : RoundingInterval) (num den unit : Nat)
    (power : Int) : Nat → Digits
  | 0 => ⟨num / den, 0⟩
  | steps + 1 =>
    match onGrid? interval num den unit power with
    | some digits => digits
    | none => searchGrids interval num den unit (power - 1) steps

/-- The digits without zeros at the end, which move into the exponent. -/
def Digits.trim (d : Digits) : Nat → Digits
  | 0 => d
  | steps + 1 =>
    if d.digits ≠ 0 ∧ d.digits % 10 = 0 then
      Digits.trim ⟨d.digits / 10, d.exponent + 1⟩ steps
    else d

/-- The fewest digits that round to `significand * 2 ^ exponent`. -/
def shortest (significand : Nat) (exponent : Int) : Digits :=
  if significand = 0 then ⟨0, 0⟩
  else
    let interval := RoundingInterval.around significand
    let unit := powerOfTwo (exponent - 2)
    let den := powerOfTwo (2 - exponent)
    let num := interval.value * unit
    let bits : Int := (Nat.log2 significand : Int) + exponent
    let length := decimalLength num den (bits * 3 / 10 - 2) 16
    (searchGrids interval num den unit (length - 1) 17).trim 20

end Decimal

end ModelText
