import Chronicle.Json.Basic

/-!
Writing documents, either without any blank or with every item and field on a line of its own.
-/

namespace Chronicle.Json

/-- A layout says what starts a line at some depth and what follows the colon of a field. -/
structure Layout where
  line : Nat → List Char
  gap : List Char

/-- The compact layout has no blanks. -/
def Layout.compact : Layout := ⟨fun _ => [], []⟩

@[simp] theorem Layout.compact_line (depth : Nat) : Layout.compact.line depth = [] := rfl

@[simp] theorem Layout.compact_gap : Layout.compact.gap = [] := rfl

/-- The pretty layout indents each depth by two spaces. -/
def Layout.pretty : Layout := ⟨fun depth => '\n' :: List.replicate (2 * depth) ' ', [' ']⟩

/-- The digit of a number below sixteen, in lower case. -/
def hexDigit (number : Nat) : Char := Nat.digitChar number

/-- An escape by code unit has four hexadecimal digits. -/
def writeUnit (unit : Nat) : List Char :=
  ['\\', 'u', hexDigit (unit / 4096 % 16), hexDigit (unit / 256 % 16), hexDigit (unit / 16 % 16),
    hexDigit (unit % 16)]

/-- Quotes, backslashes and control characters are escaped, by a short escape where there is
one. -/
def writeChar (c : Char) : List Char :=
  if c = '"' then ['\\', '"']
  else if c = '\\' then ['\\', '\\']
  else if c = '\x08' then ['\\', 'b']
  else if c = '\t' then ['\\', 't']
  else if c = '\n' then ['\\', 'n']
  else if c = '\x0c' then ['\\', 'f']
  else if c = '\r' then ['\\', 'r']
  else if c < ' ' then writeUnit c.toNat
  else [c]

def writeLetter : Letter → List Char
  | .char c => writeChar c
  | .half unit => writeUnit unit

def writeText (text : List Letter) : List Char :=
  '"' :: (text.flatMap writeLetter ++ ['"'])

/-- Integers are written in decimal. -/
def writeInteger : Int → List Char
  | .ofNat number => Nat.toDigits 10 number
  | .negSucc number => '-' :: Nat.toDigits 10 (number + 1)

mutual

/-- The text of a document at some depth. -/
def write (layout : Layout) (depth : Nat) : Json → List Char
  | .null => ['n', 'u', 'l', 'l']
  | .bool true => ['t', 'r', 'u', 'e']
  | .bool false => ['f', 'a', 'l', 's', 'e']
  | .integer number => writeInteger number
  | .real literal => literal
  | .text content => writeText content
  | .list [] => ['[', ']']
  | .list (item :: rest) =>
      '[' :: (layout.line (depth + 1) ++ item.write layout (depth + 1)
        ++ writeItems layout (depth + 1) rest ++ layout.line depth ++ [']'])
  | .record [] => ['{', '}']
  | .record ((name, content) :: rest) =>
      '{' :: (layout.line (depth + 1) ++ writeText name ++ ':' :: layout.gap
        ++ content.write layout (depth + 1) ++ writeFields layout (depth + 1) rest
        ++ layout.line depth ++ ['}'])

/-- The items after the first. -/
def writeItems (layout : Layout) (depth : Nat) : List Json → List Char
  | [] => []
  | item :: rest =>
      ',' :: (layout.line depth ++ item.write layout depth ++ writeItems layout depth rest)

/-- The fields after the first. -/
def writeFields (layout : Layout) (depth : Nat) : List (List Letter × Json) → List Char
  | [] => []
  | (name, content) :: rest =>
      ',' :: (layout.line depth ++ writeText name ++ ':' :: layout.gap
        ++ content.write layout depth ++ writeFields layout depth rest)

end

/-- The document without blanks. -/
def compact (document : Json) : String := String.ofList (document.write .compact 0)

/-- The document with one item or field per line. -/
def pretty (document : Json) : String := String.ofList (document.write .pretty 0)

end Chronicle.Json
