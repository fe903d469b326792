import Chronicle.Toml.Scalar
import Chronicle.Toml.Text

/-!
Reading a TOML text: documents, and the lines that assign them to keys or open tables.
-/

namespace Chronicle.Toml

/-- One entry of an inline table joins those before it. -/
def addEntry (entries : Option Entries) (entry : (List String × String) × Toml) :
    Option Entries :=
  entries.bind fun found => assign found entry.1.1 entry.1.2 entry.2

/-- The inline table of the given entries. -/
def inlineOf (entries : List ((List String × String) × Toml)) : Option Toml :=
  (entries.foldl addEntry (some [])).map Toml.inline

mutual

/-- A document and what follows it. The first bound is on the steps of reading, the second on how
many arrays and inline tables may still be opened within each other. -/
def readDocument : Nat → Nat → List Char → Option (Toml × List Char)
  | 0, _, _ => none
  | fuel + 1, depth, input =>
      match input with
      | [] => none
      | c :: rest =>
          if c = '"' ∨ c = '\'' then
            (readString input).map fun read => (.text read.1, read.2)
          else if c = '[' then
            match depth with
            | 0 => none
            | inner + 1 =>
                (readItems fuel inner rest).map fun read => (.array read.1, read.2)
          else if c = '{' then
            match depth with
            | 0 => none
            | inner + 1 => readInline fuel inner rest
          else readScalar input

/-- The items that are left in an array, and its closing bracket. A comma may follow the last
item. -/
def readItems : Nat → Nat → List Char → Option (List Toml × List Char)
  | 0, _, _ => none
  | fuel + 1, depth, input =>
      let start := skipLines (input.length + 1) input
      match start with
      | ']' :: rest => some ([], rest)
      | _ =>
          match readDocument fuel depth start with
          | none => none
          | some (item, left) =>
              match skipLines (left.length + 1) left with
              | ',' :: more => (readItems fuel depth more).map fun read => (item :: read.1, read.2)
              | ']' :: rest => some ([item], rest)
              | _ => none

/-- An inline table, after its opening brace. -/
def readInline : Nat → Nat → List Char → Option (Toml × List Char)
  | 0, _, _ => none
  | fuel + 1, depth, input =>
      match skipBlanks input with
      | '}' :: rest => some (.inline [], rest)
      | _ =>
          match readEntries fuel depth input with
          | none => none
          | some (entries, rest) => (inlineOf entries).map fun document => (document, rest)

/-- At least one entry of an inline table, and the closing brace. -/
def readEntries :
    Nat → Nat → List Char → Option (List ((List String × String) × Toml) × List Char)
  | 0, _, _ => none
  | fuel + 1, depth, input =>
      match readKey input with
      | some (key, '=' :: assigned) =>
          match readDocument fuel depth (skipBlanks assigned) with
          | none => none
          | some (document, left) =>
              match skipBlanks left with
              | ',' :: more =>
                  (readEntries fuel depth more).map fun read => ((key, document) :: read.1, read.2)
              | '}' :: rest => some ([(key, document)], rest)
              | _ => none
      | _ => none

end

/-- A text that is being read: the entries so far, and the path of the table that the last header
opened. -/
structure Reading where
  entries : Entries
  place : List String

/-- A key, an equals sign, a document, and the end of the line. -/
def readAssignment (reading : Reading) (input : List Char) : Option (Reading × List Char) :=
  match readKey input with
  | some ((path, name), '=' :: assigned) =>
      (readDocument (2 * input.length + 2) (depthLimit - 1) (skipBlanks assigned)).bind fun read =>
        (endLine read.2).bind fun rest =>
          (assignAt reading.entries reading.place path name read.1).map fun entries =>
            ({ reading with entries := entries }, rest)
  | _ => none

/-- A header in double brackets, after them. -/
def readElementHeader (reading : Reading) (input : List Char) : Option (Reading × List Char) :=
  match readKey input with
  | some ((path, name), ']' :: ']' :: closed) =>
      (endLine closed).bind fun rest =>
        (openElement reading.entries path name).map fun entries =>
          (⟨entries, path ++ [name]⟩, rest)
  | _ => none

/-- A header in single brackets, after the first. -/
def readTableHeader (reading : Reading) (input : List Char) : Option (Reading × List Char) :=
  match readKey input with
  | some ((path, name), ']' :: closed) =>
      (endLine closed).bind fun rest =>
        (openTable reading.entries path name).map fun entries =>
          (⟨entries, path ++ [name]⟩, rest)
  | _ => none

/-- One line that is not blank. -/
def readLine (reading : Reading) (input : List Char) : Option (Reading × List Char) :=
  match input with
  | '[' :: '[' :: rest => readElementHeader reading rest
  | '[' :: rest => readTableHeader reading rest
  | '#' :: _ => (endLine input).map fun rest => (reading, rest)
  | _ => readAssignment reading input

/-- The lines that are left. -/
def readLines : Nat → Reading → List Char → Option Entries
  | 0, _, _ => none
  | fuel + 1, reading, input =>
      match skipBlanks input with
      | [] => some reading.entries
      | start =>
          match lineFeed? start with
          | some rest => readLines fuel reading rest
          | none =>
              match readLine reading start with
              | some (next, rest) => readLines fuel next rest
              | none => none

/-- The mark of byte order that may begin a text. -/
def byteOrderMark : Char := '\uFEFF'

/-- The entries of a whole text. -/
def read (content : String) : Option Entries :=
  let characters := content.toList
  let input := if characters.head? = some byteOrderMark then characters.tail else characters
  readLines (input.length + 1) ⟨[], []⟩ input

end Chronicle.Toml
