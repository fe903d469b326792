import Chronicle.Json.Basic
import Chronicle.Text.Scan

/-!
Reading documents. Every reader takes the characters that are left and gives back those that it
leaves; it fails on a text that no document begins.
-/

namespace Chronicle.Json

open Chronicle.Text (expect hexValue)

def isBlank (c : Char) : Bool := c = ' ' || c = '\n' || c = '\t' || c = '\r'

def skipBlanks (input : List Char) : List Char := input.dropWhile isBlank

/-- The character that a short escape stands for. -/
def shortEscape (c : Char) : Option Char :=
  if c = '"' then some '"'
  else if c = '\\' then some '\\'
  else if c = '/' then some '/'
  else if c = 'b' then some '\x08'
  else if c = 'f' then some '\x0c'
  else if c = 'n' then some '\n'
  else if c = 'r' then some '\r'
  else if c = 't' then some '\t'
  else none

/-- The place inside a text: among plain characters, after a backslash, or within the digits of a
code unit. -/
inductive TextPlace where
  | plain
  | escape
  | digits (left : Nat) (unit : Nat)

/-- The letters up to the closing quote, every code unit for itself. -/
def readLetters : TextPlace → List Char → Option (List Letter × List Char)
  | _, [] => none
  | .plain, c :: rest =>
      if c = '"' then some ([], rest)
      else if c = '\\' then readLetters .escape rest
      else if c < ' ' then none
      else (readLetters .plain rest).map fun read => (.char c :: read.1, read.2)
  | .escape, c :: rest =>
      if c = 'u' then readLetters (.digits 3 0) rest
      else
        match shortEscape c with
        | some meant => (readLetters .plain rest).map fun read => (.char meant :: read.1, read.2)
        | none => none
  | .digits left unit, c :: rest =>
      match hexValue c with
      | none => none
      | some digit =>
          let value := unit * 16 + digit
          match left with
          | 0 => (readLetters .plain rest).map fun read => (.half value :: read.1, read.2)
          | more + 1 => readLetters (.digits more value) rest

def isHighHalf (unit : Nat) : Bool := 0xD800 ≤ unit && unit < 0xDC00

def isLowHalf (unit : Nat) : Bool := 0xDC00 ≤ unit && unit < 0xE000

/-- The character of a high and a low half. -/
def joinHalves (high low : Nat) : Char :=
  Char.ofNat (0x10000 + (high - 0xD800) * 0x400 + (low - 0xDC00))

/-- Code units become characters: a high half followed by a low half is one, and any unit that is
no half is one. -/
def pairUp : List Letter → List Letter
  | [] => []
  | .half high :: .half low :: rest =>
      if isHighHalf high && isLowHalf low then .char (joinHalves high low) :: pairUp rest
      else if isHighHalf high || isLowHalf high then .half high :: pairUp (.half low :: rest)
      else .char (Char.ofNat high) :: pairUp (.half low :: rest)
  | .half unit :: rest =>
      if isHighHalf unit || isLowHalf unit then .half unit :: pairUp rest
      else .char (Char.ofNat unit) :: pairUp rest
  | .char c :: rest => .char c :: pairUp rest

/-- A text, after its opening quote. -/
def readText (input : List Char) : Option (List Letter × List Char) :=
  (readLetters .plain input).map fun read => (pairUp read.1, read.2)

/-- A point needs digits behind it; where there is no point nothing is taken. -/
def readFraction : List Char → Option (List Char × List Char)
  | '.' :: rest =>
      let digits := rest.takeWhile Char.isDigit
      if digits = [] then none else some ('.' :: digits, rest.dropWhile Char.isDigit)
  | input => some ([], input)

/-- A sign is taken where there is one. -/
def readSign : List Char → List Char × List Char
  | '+' :: rest => (['+'], rest)
  | '-' :: rest => (['-'], rest)
  | input => ([], input)

/-- An exponent needs digits behind its mark and sign; where there is no mark nothing is taken. -/
def readExponent (input : List Char) : Option (List Char × List Char) :=
  match input with
  | mark :: rest =>
      if mark = 'e' ∨ mark = 'E' then
        let (sign, unsigned) := readSign rest
        let digits := unsigned.takeWhile Char.isDigit
        if digits = [] then none
        else some (mark :: (sign ++ digits), unsigned.dropWhile Char.isDigit)
      else some ([], input)
  | [] => some ([], input)

/-- The digits of an integer; only zero itself begins with a zero. -/
def readWhole (input : List Char) : Option (List Char × List Char) :=
  let digits := input.takeWhile Char.isDigit
  let rest := input.dropWhile Char.isDigit
  match digits with
  | [] => none
  | ['0'] => some (digits, rest)
  | '0' :: _ => none
  | _ => some (digits, rest)

/-- The number that a sign, digits, a fraction and an exponent denote. -/
def numberOf (negative : Bool) (whole fraction exponent : List Char) : Json :=
  let literal := (if negative then ['-'] else []) ++ whole ++ fraction ++ exponent
  if fraction ≠ [] ∨ exponent ≠ [] then .real literal
  else if negative then
    if whole = ['0'] then .real literal else .integer (-(Nat.ofDigitChars 10 whole 0 : Int))
  else .integer (Nat.ofDigitChars 10 whole 0 : Int)

/-- A number after its sign. -/
def readUnsigned (negative : Bool) (input : List Char) : Option (Json × List Char) :=
  (readWhole input).bind fun whole =>
    (readFraction whole.2).bind fun fraction =>
      (readExponent fraction.2).map fun exponent =>
        (numberOf negative whole.1 fraction.1 exponent.1, exponent.2)

/-- A number has a minus sign or none. -/
def readNumber : List Char → Option (Json × List Char)
  | '-' :: rest => readUnsigned true rest
  | input => readUnsigned false input

/-- A name, the colon behind it, and what follows. -/
def readName (input : List Char) : Option (List Letter × List Char) :=
  (expect ['"'] (skipBlanks input)).bind fun inner =>
    (readText inner).bind fun name =>
      (expect [':'] (skipBlanks name.2)).map fun rest => (name.1, rest)

mutual

/-- A document and what follows it, within a bound on the depth of reading. -/
def readDocument : Nat → List Char → Option (Json × List Char)
  | 0, _ => none
  | fuel + 1, input =>
      match skipBlanks input with
      | [] => none
      | c :: rest =>
          if c = '"' then (readText rest).map fun read => (.text read.1, read.2)
          else if c = '[' then readList fuel rest
          else if c = '{' then readRecord fuel rest
          else if c = 'n' then (expect ['u', 'l', 'l'] rest).map fun left => (.null, left)
          else if c = 't' then (expect ['r', 'u', 'e'] rest).map fun left => (.bool true, left)
          else if c = 'f' then
            (expect ['a', 'l', 's', 'e'] rest).map fun left => (.bool false, left)
          else readNumber (c :: rest)

/-- A list, after its opening bracket. -/
def readList : Nat → List Char → Option (Json × List Char)
  | 0, _ => none
  | fuel + 1, input =>
      match expect [']'] (skipBlanks input) with
      | some rest => some (.list [], rest)
      | none => (readItems fuel input).map fun read => (.list read.1, read.2)

/-- At least one item and the closing bracket. -/
def readItems : Nat → List Char → Option (List Json × List Char)
  | 0, _ => none
  | fuel + 1, input =>
      match readDocument fuel input with
      | none => none
      | some (item, left) =>
          match expect [','] (skipBlanks left) with
          | some more => (readItems fuel more).map fun read => (item :: read.1, read.2)
          | none => (expect [']'] (skipBlanks left)).map fun rest => ([item], rest)

/-- A record, after its opening brace. -/
def readRecord : Nat → List Char → Option (Json × List Char)
  | 0, _ => none
  | fuel + 1, input =>
      match expect ['}'] (skipBlanks input) with
      | some rest => some (.record [], rest)
      | none => (readFields fuel input).map fun read => (.record read.1, read.2)

/-- At least one field and the closing brace. -/
def readFields : Nat → List Char → Option (List (List Letter × Json) × List Char)
  | 0, _ => none
  | fuel + 1, input =>
      match readName input with
      | none => none
      | some (name, named) =>
          match readDocument fuel named with
          | none => none
          | some (content, left) =>
              match expect [','] (skipBlanks left) with
              | some more =>
                  (readFields fuel more).map fun read => ((name, content) :: read.1, read.2)
              | none =>
                  (expect ['}'] (skipBlanks left)).map fun rest => ([(name, content)], rest)

end

/-- Reading a document takes at most two steps per character. -/
def readChars (input : List Char) : Option Json :=
  (readDocument (2 * input.length + 2) input).bind fun read =>
    if skipBlanks read.2 = [] then some read.1 else none

/-- The document that a whole text holds, with nothing but blanks around it. -/
def read (input : String) : Option Json := readChars input.toList

end Chronicle.Json
