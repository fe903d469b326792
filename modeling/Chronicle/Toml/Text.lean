import Chronicle.Text.Scan

/-!
The parts of a TOML text that hold characters: blanks, comments, line ends, strings and keys. Every
reader gives back the characters that it leaves.
-/

namespace Chronicle.Toml

def isBlank (c : Char) : Bool := c = ' ' || c = '\t'

def skipBlanks (input : List Char) : List Char := input.dropWhile isBlank

/-- Control characters other than the tab stand in no comment and no string. -/
def isPlain (c : Char) : Bool := c = '\t' || (' ' ≤ c && c ≠ '\x7f')

/-- The line feed, with or without a carriage return before it, is taken off. -/
def lineFeed? : List Char → Option (List Char)
  | '\n' :: rest => some rest
  | '\r' :: '\n' :: rest => some rest
  | _ => none

/-- A comment reaches up to the end of its line. -/
def skipComment : List Char → List Char
  | '#' :: rest => rest.dropWhile isPlain
  | input => input

/-- Nothing but blanks and a comment stands before the end of a line or of the text. -/
def endLine (input : List Char) : Option (List Char) :=
  match skipComment (skipBlanks input) with
  | [] => some []
  | rest => lineFeed? rest

/-- Blanks, comments and line ends are passed over, within a bound on their number. -/
def skipLines : Nat → List Char → List Char
  | 0, input => input
  | fuel + 1, input =>
      match input with
      | [] => []
      | c :: rest =>
          if isBlank c then skipLines fuel rest
          else if c = '#' then skipLines fuel (skipComment input)
          else
            match lineFeed? input with
            | some more => skipLines fuel more
            | none => input

/-- The character whose code point is written with a set number of hexadecimal digits. -/
def readCodePoint (digits : Nat) (input : List Char) : Option (Char × List Char) :=
  let written := input.take digits
  if written.length < digits then none
  else
    (written.mapM Text.hexValue).bind fun values =>
      let point := values.foldl (fun sum digit => sum * 16 + digit) 0
      if point.isValidChar then some (Char.ofNat point, input.drop digits) else none

/-- The character that an escape stands for, after its backslash. -/
def readEscape : List Char → Option (Char × List Char)
  | [] => none
  | c :: rest =>
      if c = 'b' then some ('\x08', rest)
      else if c = 't' then some ('\t', rest)
      else if c = 'n' then some ('\n', rest)
      else if c = 'f' then some ('\x0c', rest)
      else if c = 'r' then some ('\r', rest)
      else if c = '"' then some ('"', rest)
      else if c = '\\' then some ('\\', rest)
      else if c = 'u' then readCodePoint 4 rest
      else if c = 'U' then readCodePoint 8 rest
      else none

/-- One character in front of what was read behind it. -/
def before (c : Char) (read : Option (List Char × List Char)) : Option (List Char × List Char) :=
  read.map fun pair => (c :: pair.1, pair.2)

/-- A string with escapes, after its opening quote. -/
def readBasic : Nat → List Char → Option (List Char × List Char)
  | 0, _ => none
  | _ + 1, [] => none
  | fuel + 1, c :: rest =>
      if c = '"' then some ([], rest)
      else if c = '\\' then
        (readEscape rest).bind fun escaped => before escaped.1 (readBasic fuel escaped.2)
      else if isPlain c then before c (readBasic fuel rest)
      else none

/-- A string without escapes, after its opening quote. -/
def readLiteral : List Char → Option (List Char × List Char)
  | [] => none
  | c :: rest =>
      if c = '\'' then some ([], rest)
      else if isPlain c then before c (readLiteral rest)
      else none

/-- The quotes that end a string over several lines: three, and up to two more that belong to its
content. -/
def closingQuotes (quote : Char) (input : List Char) : Option (List Char × List Char) :=
  let run := (input.takeWhile fun c => c = quote).length
  if run < 3 then none
  else some (List.replicate (min (run - 3) 2) quote, input.drop (min run 5))

/-- Blanks and line ends are taken off the front. -/
def skipBreaks : List Char → List Char
  | '\r' :: '\n' :: rest => skipBreaks rest
  | c :: rest => if isBlank c || c = '\n' then skipBreaks rest else c :: rest
  | [] => []

/-- A backslash before a line end hides all blanks and line ends that follow. -/
def hiddenBreak (input : List Char) : Option (List Char) :=
  (lineFeed? (skipBlanks input)).map skipBreaks

/-- A string over several lines, after its opening quotes; only with escapes does the backslash have
a meaning. -/
def readMultiline (quote : Char) (escapes : Bool) :
    Nat → List Char → Option (List Char × List Char)
  | 0, _ => none
  | _ + 1, [] => none
  | fuel + 1, c :: rest =>
      match closingQuotes quote (c :: rest) with
      | some closed => some closed
      | none =>
          match lineFeed? (c :: rest) with
          | some more => before '\n' (readMultiline quote escapes fuel more)
          | none =>
              if escapes && c = '\\' then
                match hiddenBreak rest with
                | some more => readMultiline quote escapes fuel more
                | none =>
                    (readEscape rest).bind fun escaped =>
                      before escaped.1 (readMultiline quote escapes fuel escaped.2)
              else if isPlain c then before c (readMultiline quote escapes fuel rest)
              else none

/-- A line end directly after the opening quotes does not belong to the string. -/
def dropFirstBreak (input : List Char) : List Char := (lineFeed? input).getD input

/-- Three quotes are taken off the front. -/
def tripled (quote : Char) : List Char → Option (List Char)
  | first :: second :: third :: rest =>
      if first = quote ∧ second = quote ∧ third = quote then some rest else none
  | _ => none

/-- A string of any of the four kinds, from its first quote on. -/
def readString (input : List Char) : Option (List Char × List Char) :=
  match tripled '"' input with
  | some rest => readMultiline '"' true (input.length + 1) (dropFirstBreak rest)
  | none =>
      match tripled '\'' input with
      | some rest => readMultiline '\'' false (input.length + 1) (dropFirstBreak rest)
      | none =>
          match input with
          | '"' :: rest => readBasic (input.length + 1) rest
          | '\'' :: rest => readLiteral rest
          | _ => none

/-- The characters of a key without quotes. -/
def isBare (c : Char) : Bool := c.isAlphanum || c = '_' || c = '-'

/-- One part of a key. -/
def readPart (input : List Char) : Option (String × List Char) :=
  match input with
  | '"' :: rest =>
      (readBasic (input.length + 1) rest).map fun read => (String.ofList read.1, read.2)
  | '\'' :: rest => (readLiteral rest).map fun read => (String.ofList read.1, read.2)
  | _ =>
      let bare := input.takeWhile isBare
      if bare = [] then none else some (String.ofList bare, input.dropWhile isBare)

/-- The parts of a key, with dots between them and blanks around them. -/
def readParts : Nat → List Char → Option (List String × List Char)
  | 0, _ => none
  | fuel + 1, input =>
      (readPart (skipBlanks input)).bind fun part =>
        match skipBlanks part.2 with
        | '.' :: rest => (readParts fuel rest).map fun more => (part.1 :: more.1, more.2)
        | rest => some ([part.1], rest)

/-- Keys and documents nest less deep than this. -/
def depthLimit : Nat := 80

/-- A key is the path to a table and a name in it. -/
def readKey (input : List Char) : Option ((List String × String) × List Char) :=
  (readParts (input.length + 1) input).bind fun parts =>
    if parts.1.length < depthLimit then
      parts.1.getLast?.map fun name => ((parts.1.dropLast, name), parts.2)
    else none

end Chronicle.Toml
