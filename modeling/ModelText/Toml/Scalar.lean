import ModelText.Decimal.Reader
import ModelText.Toml.Basic

/-!
# Texts, numbers, truth values and moments of TOML

A text stands between quotation marks: double ones, where a backslash starts an
escape, or single ones, where nothing does; three of them surround a text of
several lines. Everything else that is not a list or a table is a word. A day
and a time of that day are one word, also with a blank between them.
-/

namespace ModelText.Toml

/-- Whether a character can stand in a line. -/
def isText (c : Char) : Bool := c = '\t' || (' ' ≤ c && c ≠ '\x7f')

/-- The character of a letter behind a backslash. -/
def escape? : Char → Option Char
  | 'b' => some '\x08'
  | 't' => some '\t'
  | 'n' => some '\n'
  | 'f' => some '\x0c'
  | 'r' => some '\r'
  | 'e' => some '\x1b'
  | '"' => some '"'
  | '\\' => some '\\'
  | _ => none

/-- The value of a digit to base 16. -/
def hexDigit? (c : Char) : Option Nat :=
  if c.isDigit then some (c.toNat - '0'.toNat)
  else if 'a' ≤ c && c ≤ 'f' then some (c.toNat - 'a'.toNat + 10)
  else if 'A' ≤ c && c ≤ 'F' then some (c.toNat - 'A'.toNat + 10)
  else none

/-- The character whose number is written to base 16. -/
def hexChar? (digits : List Char) : Option Char := do
  let values ← digits.mapM hexDigit?
  let n := values.foldl (fun n digit => 16 * n + digit) 0
  if n.isValidChar then return Char.ofNat n else none

/-- The number of digits of a numbered character, by the letter before it. -/
def digitCount? : Char → Option Nat
  | 'x' => some 2
  | 'u' => some 4
  | 'U' => some 8
  | _ => none

/-- Reads what stands behind a backslash. -/
def readEscape : List Char → Option (Char × List Char)
  | [] => none
  | c :: rest =>
    match digitCount? c with
    | none => (escape? c).map fun c => (c, rest)
    | some n =>
      if rest.length < n then none
      else (hexChar? (rest.take n)).map fun c => (c, rest.drop n)

theorem length_readEscape {cs rest : List Char} {c : Char}
    (h : readEscape cs = some (c, rest)) : rest.length < cs.length := by
  unfold readEscape at h
  split at h
  · cases h
  · split at h
    · obtain ⟨_, _, h⟩ := Option.map_eq_some_iff.1 h
      cases h
      simp
    · split at h
      · cases h
      · obtain ⟨_, _, h⟩ := Option.map_eq_some_iff.1 h
        cases h
        simp only [List.length_drop, List.length_cons]
        omega

/-- Leaves out blanks and ends of lines. -/
def dropSpace : List Char → List Char
  | [] => []
  | '\r' :: '\n' :: rest => dropSpace rest
  | c :: rest =>
    if c = ' ' || c = '\t' || c = '\n' then dropSpace rest else c :: rest

theorem length_dropSpace_le (cs : List Char) :
    (dropSpace cs).length ≤ cs.length := by
  fun_induction dropSpace cs <;> grind

/-- Whether an end of a line comes next. -/
def atLineBreak : List Char → Bool
  | '\n' :: _ => true
  | '\r' :: '\n' :: _ => true
  | _ => false

/-- Leaves out the white space behind a backslash at the end of a line. -/
def dropBreak? (cs : List Char) : Option (List Char) :=
  if atLineBreak (cs.dropWhile fun c => c = ' ' || c = '\t') then
    some (dropSpace cs)
  else none

theorem length_dropBreak? {cs rest : List Char}
    (h : dropBreak? cs = some rest) : rest.length ≤ cs.length := by
  unfold dropBreak? at h
  split at h
  · cases h
    exact length_dropSpace_le cs
  · cases h

/-- The end of a text, if it is here: what still belongs to the text, and what
follows. A text of several lines ends with three marks, and two more can stand
right before them. -/
def closing? (mark : Char) (long : Bool) (cs : List Char) :
    Option (List Char × List Char) :=
  let count := (cs.takeWhile (· = mark)).length
  if long then
    if count < 3 then none
    else some (cs.take (min count 5 - 3), cs.drop (min count 5))
  else if count = 0 then none
  else some ([], cs.drop 1)

/-- Whether the first character can stand in a text. -/
def isContent (long : Bool) (cs : List Char) : Bool :=
  cs.head?.any isText || (long && atLineBreak cs)

/-- Reads the rest of a text in which nothing is escaped. -/
def plainContent (long : Bool) : List Char → Option (List Char × List Char)
  | [] => none
  | c :: rest =>
    match closing? '\'' long (c :: rest) with
    | some found => some found
    | none =>
      if isContent long (c :: rest) then
        (plainContent long rest).map fun (cs, rest) => (c :: cs, rest)
      else none

/-- Reads the rest of a text in which a backslash starts an escape. -/
def escapedContent (long : Bool) (cs : List Char) :
    Option (List Char × List Char) :=
  match closing? '"' long cs, cs with
  | some found, _ => some found
  | none, [] => none
  | none, '\\' :: rest =>
    match _h : readEscape rest with
    | some (c, after) => (escapedContent long after).map fun (cs, rest) =>
        (c :: cs, rest)
    | none =>
      if !long then none
      else match _h : dropBreak? rest with
        | some after => escapedContent long after
        | none => none
  | none, c :: rest =>
    if isContent long (c :: rest) then
      (escapedContent long rest).map fun (cs, rest) => (c :: cs, rest)
    else none
termination_by cs.length
decreasing_by
  · have := length_readEscape ‹_›
    simp
    omega
  · have := length_dropBreak? ‹_›
    simp
    omega
  · simp

/-- Reads a text that starts with one or three of some mark; the first end of a
line in a text of several lines does not belong to it. -/
def readString : List Char → Option (String × List Char)
  | '"' :: '"' :: '"' :: rest => finish (escapedContent true (dropFirst rest))
  | '"' :: rest => finish (escapedContent false rest)
  | '\'' :: '\'' :: '\'' :: rest =>
    finish (plainContent true (dropFirst rest))
  | '\'' :: rest => finish (plainContent false rest)
  | _ => none
where
  /-- Leaves out one end of a line. -/
  dropFirst : List Char → List Char
    | '\n' :: rest => rest
    | '\r' :: '\n' :: rest => rest
    | cs => cs
  /-- The text from its characters. -/
  finish (found : Option (List Char × List Char)) :
      Option (String × List Char) :=
    found.map fun (cs, rest) => (String.ofList cs, rest)

/-! ### Words -/

/-- The digits of a number without the low lines between them. -/
def digits? (isDigit : Char → Bool) : List Char → Option (List Char)
  | [] => none
  | [c] => if isDigit c then some [c] else none
  | c :: '_' :: rest =>
    if isDigit c then (digits? isDigit rest).map (c :: ·) else none
  | c :: rest =>
    if isDigit c then (digits? isDigit rest).map (c :: ·) else none

/-- The sign of a number and what follows it. -/
def cutSign : List Char → List Char × List Char
  | '+' :: rest => ([], rest)
  | '-' :: rest => (['-'], rest)
  | cs => ([], cs)

/-- The digits of a whole number to base 10; none but zero starts with 0. -/
def wholeDigits? (cs : List Char) : Option (List Char) := do
  let ds ← digits? Char.isDigit cs
  if ds.head? = some '0' && ds.length ≠ 1 then none else return ds

/-- The number of some digits to a base. -/
def ofDigits? (base : Nat) (cs : List Char) : Option Int := do
  let isDigit (c : Char) := (hexDigit? c).any (· < base)
  let ds ← digits? isDigit cs
  let values ← ds.mapM hexDigit?
  return (values.foldl (fun n digit => base * n + digit) 0 : Nat)

/-- The integer that a word stands for. -/
def integerWord? : List Char → Option Int
  | '0' :: 'x' :: rest => ofDigits? 16 rest
  | '0' :: 'o' :: rest => ofDigits? 8 rest
  | '0' :: 'b' :: rest => ofDigits? 2 rest
  | cs => do
    let (sign, rest) := cutSign cs
    let n := Decimal.digitsValue (← wholeDigits? rest)
    return if sign.isEmpty then n else -n

/-- The digits of a decimal behind its point, if it has one, the point with
them. -/
def fraction? : List Char → Option (List Char)
  | [] => some []
  | '.' :: rest => (digits? Char.isDigit rest).map ('.' :: ·)
  | _ => none

/-- The power of ten of a decimal, if it has one, its letter with it. -/
def power? : List Char → Option (List Char)
  | [] => some []
  | _ :: rest => do
    let (sign, rest) := cutSign rest
    return 'e' :: sign ++ (← digits? Char.isDigit rest)

/-- The decimal that a word stands for; a number too large for any decimal but
the infinite one overflows. -/
def decimalWord? (cs : List Char) : Option Toml := do
  let (sign, rest) := cutSign cs
  if rest = ['i', 'n', 'f'] || rest = ['n', 'a', 'n'] then
    return .decimal (← Decimal.ofChars? (sign ++ rest))
  else
    let isPower (c : Char) := c = 'e' || c = 'E'
    let mantissa := rest.takeWhile (!isPower ·)
    let whole ← wholeDigits? (mantissa.takeWhile (· ≠ '.'))
    let fraction ← fraction? (mantissa.dropWhile (· ≠ '.'))
    let power ← power? (rest.dropWhile (!isPower ·))
    match ← Decimal.ofChars? (sign ++ whole ++ fraction ++ power) with
    | .infinite _ => return .overflow
    | value => return .decimal value

/-- Whether a character can stand in a word. -/
def isWordChar (c : Char) : Bool :=
  c.isAlphanum || c = '_' || c = '+' || c = '-' || c = '.' || c = ':'

/-- The value that a word stands for. -/
def word? (cs : List Char) : Option Toml :=
  if cs = "true".toList then some (.boolean true)
  else if cs = "false".toList then some (.boolean false)
  else (integerWord? cs).map .integer <|> decimalWord? cs <|>
    (Moment.ofChars? cs).map .moment

/-- The characters of the word that comes next, and what follows them. -/
def cutWord (cs : List Char) : List Char × List Char :=
  let word := cs.takeWhile isWordChar
  match cs.dropWhile isWordChar with
  | ' ' :: c :: rest =>
    if Moment.isDay word && c.isDigit then
      (word ++ ' ' :: (c :: rest).takeWhile isWordChar,
        (c :: rest).dropWhile isWordChar)
    else (word, ' ' :: c :: rest)
  | rest => (word, rest)

end ModelText.Toml
