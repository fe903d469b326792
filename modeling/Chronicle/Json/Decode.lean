import Chronicle.Interval
import Chronicle.Json.Basic

/-!
Taking documents apart. A record is given by the names of its fields or as a list in the order of
the fields. Names that a record does not know are passed over, and a name that it knows may come
once.
-/

namespace Chronicle.Json

def asString : Json → Option String
  | .text letters => denoted letters
  | _ => none

def asBool : Json → Option Bool
  | .bool flag => some flag
  | _ => none

/-- A character is a string of length one. -/
def asChar (document : Json) : Option Char :=
  match document.asString.map String.toList with
  | some [c] => some c
  | _ => none

/-- Integers between two bounds, the second one excluded. -/
def asIntegerWithin (low high : Int) : Json → Option Int
  | .integer number => if low ≤ number ∧ number < high then some number else none
  | _ => none

/-- Natural numbers of one machine word. -/
def asNatural (document : Json) : Option Nat :=
  (document.asIntegerWithin 0 wordBound).map Int.toNat

def asInt32 (document : Json) : Option Int32 :=
  (document.asIntegerWithin (-2147483648) 2147483648).map Int32.ofInt

def asInt64 (document : Json) : Option Int64 :=
  (document.asIntegerWithin (-9223372036854775808) 9223372036854775808).map Int64.ofInt

/-- Absence is written as a null. -/
def asOption {A : Type} (decode : Json → Option A) : Json → Option (Option A)
  | .null => some none
  | document => (decode document).map some

def asList {A : Type} (decode : Json → Option A) : Json → Option (List A)
  | .list items => items.mapM decode
  | _ => none

/-- The fields of a record with their names as strings. -/
def namedFields (fields : List (List Letter × Json)) : Option (List (String × Json)) :=
  fields.mapM fun field => (denoted field.1).map fun name => (name, field.2)

/-- A table of documents by name, in the order of the text. -/
def asTable {A : Type} (decode : Json → Option A) : Json → Option (List (String × A))
  | .record fields =>
      (namedFields fields).bind fun named =>
        named.mapM fun field => (decode field.2).map fun content => (field.1, content)
  | _ => none

/-- What a record gives for a field: a document, nothing since no field has its name, or nothing
since the list ended before it. -/
inductive Given where
  | document (content : Json)
  | unnamed
  | cutOff

/-- The only document under one of the names of a field. -/
def givenIn (named : List (String × Json)) (names : List String) : Option Given :=
  match named.filter fun field => field.1 ∈ names with
  | [] => some .unnamed
  | [field] => some (.document field.2)
  | _ => none

/-- What a record gives for each of its fields, which are listed with all their names. -/
def fields (names : List (List String)) : Json → Option (List Given)
  | .record given => (namedFields given).bind fun named => names.mapM (givenIn named)
  | .list items =>
      if items.length ≤ names.length then
        some (items.map Given.document
          ++ List.replicate (names.length - items.length) Given.cutOff)
      else none
  | _ => none

namespace Given

/-- The field has to be there. -/
def required {A : Type} (given : Given) (decode : Json → Option A) : Option A :=
  match given with
  | .document content => decode content
  | _ => none

/-- The field may be null, and may be missing by name, but a list must reach it. -/
def optional {A : Type} (given : Given) (decode : Json → Option A) : Option (Option A) :=
  match given with
  | .document content => content.asOption decode
  | .unnamed => some none
  | .cutOff => none

/-- A missing field has a default. -/
def orElse {A : Type} (given : Given) (decode : Json → Option A) (default : A) : Option A :=
  match given with
  | .document content => decode content
  | _ => some default

end Given

end Chronicle.Json
