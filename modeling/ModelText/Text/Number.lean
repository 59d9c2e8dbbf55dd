/-!
# Whole numbers as text

A whole number is written with decimal digits, without zeros at the front, and
with a minus sign if it is negative. Every message and tree writes numbers
through the functions of this module.
-/

namespace ModelText.Text

/-- The decimal digits of a natural number. -/
def natChars (n : Nat) : List Char := Nat.toDigits 10 n

/-- The digits of an integer behind its sign. -/
def intChars (i : Int) : List Char :=
  if i < 0 then '-' :: natChars i.natAbs else natChars i.natAbs

/-- A natural number as text. -/
def ofNat (n : Nat) : String := String.ofList (natChars n)

/-- An integer as text. -/
def ofInt (i : Int) : String := String.ofList (intChars i)

end ModelText.Text
