/-!
JSON documents. A text in a document is a list of letters: characters, and the surrogate halves that
an escape may leave without a partner. Only texts without such halves denote a string.
-/

namespace Chronicle

/-- A letter is a character or an unpaired surrogate half. -/
inductive Letter where
  | char (c : Char)
  | half (unit : Nat)
  deriving DecidableEq

/-- A document is a scalar, a list of documents or a record of named documents. A number that is
not an integer, and the negative zero, keep their literal. -/
inductive Json where
  | null
  | bool (flag : Bool)
  | integer (number : Int)
  | real (literal : List Char)
  | text (letters : List Letter)
  | list (items : List Json)
  | record (fields : List (List Letter × Json))

instance : Inhabited Json := ⟨.null⟩

namespace Json

/-- The letters of a string. -/
def letters (content : String) : List Letter := content.toList.map Letter.char

/-- The characters of a text, if none of its letters is an unpaired half. -/
def characters : List Letter → Option (List Char)
  | [] => some []
  | .char c :: rest => (characters rest).map (c :: ·)
  | .half _ :: _ => none

/-- The string that a text denotes. -/
def denoted (text : List Letter) : Option String := (characters text).map String.ofList

def string (content : String) : Json := .text (letters content)

def natural (number : Nat) : Json := .integer (number : Int)

def optional {A : Type} (write : A → Json) : Option A → Json
  | none => .null
  | some content => write content

/-- A record from names and documents. -/
def object (fields : List (String × Json)) : Json :=
  .record (fields.map fun field => (letters field.1, field.2))

/-- A record has a field only where its content is there. -/
def whenPresent {A : Type} (name : String) (write : A → Json) : Option A → List (String × Json)
  | none => []
  | some content => [(name, write content)]

theorem characters_map_char (content : List Char) :
    characters (content.map Letter.char) = some content := by
  induction content with
  | nil => rfl
  | cons c rest ih => simp [characters, ih]

@[simp] theorem denoted_letters (content : String) : denoted (letters content) = some content := by
  simp [denoted, letters, characters_map_char]

end Json

end Chronicle
