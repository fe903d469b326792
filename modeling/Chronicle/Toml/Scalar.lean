import Chronicle.Text.Scan
import Chronicle.Toml.Basic

/-!
The scalars of a TOML text that are no strings: dates and times, floats, integers and booleans.
-/

namespace Chronicle.Toml

open Chronicle.Text (expect hexValue)

/-- A number of a set count of digits between two bounds, both included. -/
def readField (digits low high : Nat) (input : List Char) : Option (Nat × List Char) :=
  let written := input.take digits
  if written.length = digits ∧ written.all Char.isDigit then
    let number := Nat.ofDigitChars 10 written 0
    if low ≤ number ∧ number ≤ high then some (number, input.drop digits) else none
  else none

def isLeapYear (year : Nat) : Bool :=
  year % 4 = 0 && (year % 100 ≠ 0 || year % 400 = 0)

def daysOfMonth (year month : Nat) : Nat :=
  if month = 2 then (if isLeapYear year then 29 else 28)
  else if month = 4 ∨ month = 6 ∨ month = 9 ∨ month = 11 then 30
  else 31

/-- A date is taken off the front. -/
def readDate (input : List Char) : Option (List Char) := do
  let (year, rest) ← readField 4 0 9999 input
  let rest ← expect ['-'] rest
  let (month, rest) ← readField 2 1 12 rest
  let rest ← expect ['-'] rest
  let (_, rest) ← readField 2 1 (daysOfMonth year month) rest
  some rest

/-- The parts of a second, where there are any, are taken off the front. -/
def skipSecondParts : List Char → List Char
  | '.' :: c :: rest => if c.isDigit then rest.dropWhile Char.isDigit else '.' :: c :: rest
  | input => input

/-- A time of day is taken off the front; the last second of a day may be a leap second. -/
def readTimeOfDay (input : List Char) : Option (List Char) := do
  let (_, rest) ← readField 2 0 23 input
  let rest ← expect [':'] rest
  let (_, rest) ← readField 2 0 59 rest
  let rest ← expect [':'] rest
  let (_, rest) ← readField 2 0 60 rest
  some (skipSecondParts rest)

/-- The distance from universal time as hours and minutes. -/
def readDistance (input : List Char) : Option (List Char) := do
  let (_, rest) ← readField 2 0 23 input
  let rest ← expect [':'] rest
  let (_, rest) ← readField 2 0 59 rest
  some rest

/-- The offset from universal time, where there is one, is taken off the front. -/
def skipOffset (input : List Char) : List Char :=
  match input with
  | [] => []
  | c :: rest =>
      if c = 'Z' ∨ c = 'z' then rest
      else if c = '+' ∨ c = '-' then (readDistance rest).getD input
      else input

/-- The time behind a date, where there is one, is taken off the front. -/
def skipTime (input : List Char) : List Char :=
  match input with
  | [] => []
  | c :: rest =>
      if c = 'T' ∨ c = 't' ∨ c = ' ' then
        match readTimeOfDay rest with
        | some timed => skipOffset timed
        | none => input
      else input

/-- What was taken off the front of a text, given the rest. -/
def takenFrom (input rest : List Char) : List Char := input.take (input.length - rest.length)

/-- A date, a date with a time, or a time. -/
def readMoment (input : List Char) : Option (Toml × List Char) :=
  match readDate input with
  | some dated =>
      let rest := skipTime dated
      some (.moment (takenFrom input rest), rest)
  | none =>
      (readTimeOfDay input).map fun rest => (.moment (takenFrom input rest), rest)

/-- Digits of some kind, with single underscores between digits. -/
def readDigits (isDigit : Char → Bool) : List Char → List Char × List Char
  | c :: '_' :: next :: rest =>
      if isDigit c && isDigit next then
        let more := readDigits isDigit (next :: rest)
        (c :: more.1, more.2)
      else if isDigit c then ([c], '_' :: next :: rest)
      else ([], c :: '_' :: next :: rest)
  | c :: rest =>
      if isDigit c then
        let more := readDigits isDigit rest
        (c :: more.1, more.2)
      else ([], c :: rest)
  | [] => ([], [])

/-- A sign, where there is one, and whether it is a minus. -/
def readSign : List Char → Bool × List Char
  | '+' :: rest => (false, rest)
  | '-' :: rest => (true, rest)
  | input => (false, input)

/-- A decimal integer: its sign and its digits, of which only a lone zero is a first one. -/
def readDecimal (input : List Char) : Option ((Bool × List Char) × List Char) :=
  let (negative, unsigned) := readSign input
  match unsigned with
  | '0' :: rest => some ((negative, ['0']), rest)
  | _ =>
      let (digits, rest) := readDigits Char.isDigit unsigned
      if digits = [] then none else some ((negative, digits), rest)

/-- The digits behind a point, where there is one. -/
def readFraction (input : List Char) : Option (List Char × List Char) :=
  match input with
  | '.' :: rest =>
      let (digits, left) := readDigits Char.isDigit rest
      if digits = [] then none else some (digits, left)
  | _ => some ([], input)

/-- The exponent behind its mark, where there is one. -/
def readExponent (input : List Char) : Option (Option Int × List Char) :=
  match input with
  | mark :: rest =>
      if mark = 'e' ∨ mark = 'E' then
        let (negative, unsigned) := readSign rest
        let (digits, left) := readDigits Char.isDigit unsigned
        if digits = [] then none
        else
          let size : Int := Nat.ofDigitChars 10 digits 0
          some (some (if negative then -size else size), left)
      else some (none, input)
  | [] => some (none, input)

/-- The least magnitude that rounds to no finite float of 64 bits. -/
def floatBound : Nat := Nat.pow 2 1024 - Nat.pow 2 970

/-- The digits, scaled by a power of ten, reach the bound of finite floats. -/
def overflows (digits : List Char) (scale : Int) : Bool :=
  let number := Nat.ofDigitChars 10 digits 0
  if number = 0 then false
  else if scale ≥ 400 then true
  else if scale + digits.length < 300 then false
  else if scale ≥ 0 then floatBound ≤ number * Nat.pow 10 scale.toNat
  else floatBound * Nat.pow 10 (-scale).toNat ≤ number

/-- A float has a fraction or an exponent, and is finite unless it is negative. -/
def readFloat (input : List Char) : Option (Toml × List Char) := do
  let ((negative, whole), afterWhole) ← readDecimal input
  let (fraction, afterFraction) ← readFraction afterWhole
  let (exponent, rest) ← readExponent afterFraction
  if fraction = [] ∧ exponent = none then none
  else if !negative && overflows (whole ++ fraction) (exponent.getD 0 - fraction.length) then none
  else some (.float (takenFrom input rest), rest)

/-- Infinity and the undefined float, with or without a sign. -/
def readSpecialFloat (input : List Char) : Option (Toml × List Char) :=
  let unsigned := (readSign input).2
  match (expect ['i', 'n', 'f'] unsigned).or (expect ['n', 'a', 'n'] unsigned) with
  | some rest => some (.float (takenFrom input rest), rest)
  | none => none

/-- Integers have 64 bits. -/
def integerOf (number : Int) : Option Toml :=
  if -9223372036854775808 ≤ number ∧ number < 9223372036854775808 then some (.integer number)
  else none

def isHexDigit (c : Char) : Bool := (hexValue c).isSome

def isOctalDigit (c : Char) : Bool := '0' ≤ c && c ≤ '7'

def isBinaryDigit (c : Char) : Bool := c = '0' || c = '1'

/-- An integer in a base, after the mark of the base. -/
def readBased (base : Nat) (isDigit : Char → Bool) (input : List Char) :
    Option (Toml × List Char) :=
  let (digits, rest) := readDigits isDigit input
  if digits = [] then none
  else
    let number := digits.foldl (fun sum c => sum * base + (hexValue c).getD 0) 0
    (integerOf number).map fun document => (document, rest)

/-- An integer is decimal, or begins with the mark of another base. -/
def readInteger (input : List Char) : Option (Toml × List Char) :=
  match input with
  | '0' :: 'x' :: rest => readBased 16 isHexDigit rest
  | '0' :: 'o' :: rest => readBased 8 isOctalDigit rest
  | '0' :: 'b' :: rest => readBased 2 isBinaryDigit rest
  | _ =>
      (readDecimal input).bind fun read =>
        let size : Int := Nat.ofDigitChars 10 read.1.2 0
        (integerOf (if read.1.1 then -size else size)).map fun document => (document, read.2)

def readBoolean (input : List Char) : Option (Toml × List Char) :=
  match expect ['t', 'r', 'u', 'e'] input with
  | some rest => some (.boolean true, rest)
  | none => (expect ['f', 'a', 'l', 's', 'e'] input).map fun rest => (.boolean false, rest)

/-- A scalar that is no string. The readers are tried in turn, so that a longer form wins over the
integer with which it begins. -/
def readScalar (input : List Char) : Option (Toml × List Char) :=
  ((((readMoment input).or (readFloat input)).or (readSpecialFloat input)).or
    (readInteger input)).or (readBoolean input)

end Chronicle.Toml
