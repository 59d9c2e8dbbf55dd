import ModelText.Decimal.Reader
import ModelText.Text.Number

/-!
# Moments

A moment in a TOML text is a day, a time of the day, or both; a day with a time
can also say how far the clock is ahead of the common one. `Moment.ofChars?`
reads a moment, and `Moment.chars` writes it in one form: the day before the
letter `T`, and a fraction of a second with nine digits at most and without
zeros at its end.
-/

namespace ModelText

/-- The number of days of a month; a month that there is not has none. -/
def daysIn (year month : Nat) : Nat :=
  if month = 2 then
    if year % 4 = 0 && (year % 100 ≠ 0 || year % 400 = 0) then 29 else 28
  else if month = 4 || month = 6 || month = 9 || month = 11 then 30
  else if month = 0 || 12 < month then 0
  else 31

/-- A day of the calendar. -/
structure Date where
  year : Nat
  month : Nat
  day : Nat
  /-- The month has such a day. -/
  isDay : 0 < day ∧ day ≤ daysIn year month
  deriving DecidableEq

/-- A time of the day. A minute in which the clocks are set has a second more
than the others. -/
structure DayTime where
  hour : Nat
  minute : Nat
  /-- The second, if it is told. -/
  second : Option Nat
  /-- The digits of the fraction of the second, if it is told. -/
  fraction : Option (List Char)
  deriving DecidableEq

/-- How far a clock is ahead of the common one. -/
inductive ClockOffset where
  /-- The common clock itself. -/
  | common
  /-- The minutes that a clock is ahead; below zero it is behind. -/
  | ahead (minutes : Int)
  deriving DecidableEq

/-- A day, a time of the day, or both. -/
inductive Moment where
  | dayAlone (date : Date)
  | timeAlone (time : DayTime)
  | dayAndTime (date : Date) (time : DayTime) (offset : Option ClockOffset)
  deriving DecidableEq

/-! ### Reading -/

namespace Moment

/-- Reads a number of two digits. -/
def twoDigits? : List Char → Option (Nat × List Char)
  | a :: b :: rest =>
    if a.isDigit && b.isDigit then some (Decimal.digitsValue [a, b], rest)
    else none
  | _ => none

/-- Reads a number of two digits behind some mark. -/
def markedDigits? (mark : Char) : List Char → Option (Nat × List Char)
  | c :: rest => if c = mark then twoDigits? rest else none
  | [] => none

/-- Reads a day: a year of four digits, a month and a day of two each. -/
def readDate? (cs : List Char) : Option (Date × List Char) := do
  let (century, cs) ← twoDigits? cs
  let (year, cs) ← twoDigits? cs
  let (month, cs) ← markedDigits? '-' cs
  let (day, cs) ← markedDigits? '-' cs
  let year := 100 * century + year
  if h : 0 < day ∧ day ≤ daysIn year month then
    return (⟨year, month, day, h⟩, cs)
  else none

/-- The digits of a fraction that are kept: nine, without zeros at the end, but
one digit in any case. -/
def keptDigits (digits : List Char) : List Char :=
  match ((digits.take 9).reverse.dropWhile (· = '0')).reverse with
  | [] => ['0']
  | kept => kept

/-- Reads the fraction of a second, if there is one. -/
def readFraction? : List Char → Option (Option (List Char) × List Char)
  | '.' :: rest =>
    let digits := rest.takeWhile Char.isDigit
    if digits.isEmpty then none
    else some (some (keptDigits digits), rest.dropWhile Char.isDigit)
  | cs => some (none, cs)

/-- Reads a time of the day, which can end with the minute. -/
def readTime? (cs : List Char) : Option (DayTime × List Char) := do
  let (hour, cs) ← twoDigits? cs
  let (minute, cs) ← markedDigits? ':' cs
  if 23 < hour || 59 < minute then none
  else if cs.head? = some ':' then do
    let (second, cs) ← markedDigits? ':' cs
    let (fraction, cs) ← readFraction? cs
    if 60 < second then none
    else return (⟨hour, minute, some second, fraction⟩, cs)
  else return (⟨hour, minute, none, none⟩, cs)

/-- Reads the hours and minutes that a clock is off. -/
def offMinutes? (cs : List Char) : Option Nat := do
  let (hour, cs) ← twoDigits? cs
  let (minute, cs) ← markedDigits? ':' cs
  if 23 < hour || 59 < minute || !cs.isEmpty then none
  else return 60 * hour + minute

/-- Reads what a moment says of its clock, if it says something. -/
def offset? : List Char → Option (Option ClockOffset)
  | [] => some none
  | ['Z'] => some (some .common)
  | ['z'] => some (some .common)
  | '+' :: cs => (offMinutes? cs).map fun n => some (.ahead n)
  | '-' :: cs => (offMinutes? cs).map fun n => some (.ahead (-n))
  | _ => none

/-- The moment that some characters stand for. -/
def ofChars? (cs : List Char) : Option Moment :=
  match readDate? cs with
  | some (date, []) => some (.dayAlone date)
  | some (date, c :: rest) =>
    if c = 'T' || c = 't' || c = ' ' then do
      let (time, rest) ← readTime? rest
      return .dayAndTime date time (← offset? rest)
    else none
  | none =>
    match readTime? cs with
    | some (time, []) => some (.timeAlone time)
    | _ => none

/-- Whether some characters are a day and nothing else. -/
def isDay (cs : List Char) : Bool :=
  match readDate? cs with
  | some (_, []) => true
  | _ => false

end Moment

/-! ### Writing -/

/-- A number with zeros in front of it, up to some number of digits. -/
def paddedChars (count n : Nat) : List Char :=
  (Text.natChars n).leftpad count '0'

/-- A day in characters. -/
def Date.chars (d : Date) : List Char :=
  paddedChars 4 d.year ++ '-' :: paddedChars 2 d.month ++
    '-' :: paddedChars 2 d.day

/-- A time of the day in characters. -/
def DayTime.chars (t : DayTime) : List Char :=
  paddedChars 2 t.hour ++ ':' :: paddedChars 2 t.minute ++
    t.second.elim [] (':' :: paddedChars 2 ·) ++ t.fraction.elim [] ('.' :: ·)

/-- In characters how far a clock is ahead. -/
def ClockOffset.chars : ClockOffset → List Char
  | .common => ['Z']
  | .ahead minutes =>
    (if minutes < 0 then '-' else '+') ::
      paddedChars 2 (minutes.natAbs / 60) ++
      ':' :: paddedChars 2 (minutes.natAbs % 60)

/-- A moment in characters. -/
def Moment.chars : Moment → List Char
  | .dayAlone date => date.chars
  | .timeAlone time => time.chars
  | .dayAndTime date time offset =>
    date.chars ++ 'T' :: time.chars ++ offset.elim [] ClockOffset.chars

/-- A moment as text. -/
def Moment.text (m : Moment) : String := String.ofList m.chars

end ModelText
