/-!
The values that attributes hold: nothing, an integer of one of two widths, or a text.
-/

namespace Chronicle

/-- A value is absent, a 32-bit integer, a 64-bit integer or a text. -/
inductive Value where
  | null
  | int (number : Int32)
  | long (number : Int64)
  | text (content : String)
  deriving DecidableEq, Inhabited

/-- An absent value stays absent, and a present one is injected. -/
def Value.ofOption {A : Type} (inject : A → Value) : Option A → Value
  | none => .null
  | some content => inject content

def Value.isNull : Value → Bool
  | .null => true
  | _ => false

def Value.asInt : Value → Option Int32
  | .int number => some number
  | _ => none

/-- Both integer widths have a wide reading. -/
def Value.asLong : Value → Option Int64
  | .int number => some number.toInt64
  | .long number => some number
  | _ => none

def Value.asText : Value → Option String
  | .text content => some content
  | _ => none

/-- The kind separates values that have the same display. -/
def Value.kind : Value → String
  | .null => "null"
  | .int _ => "int"
  | .long _ => "long"
  | .text _ => "string"

/-- The display writes integers in decimal and a text as it is. -/
def Value.display : Value → String
  | .null => "null"
  | .int number => toString number.toInt
  | .long number => toString number.toInt
  | .text content => content

end Chronicle
