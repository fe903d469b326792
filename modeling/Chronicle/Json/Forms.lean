import Chronicle.Config
import Chronicle.Event
import Chronicle.Json.Decode

/-!
The JSON forms of values, intervals, events and configurations.
-/

namespace Chronicle

/-- A value is written under its kind, and an absent one as its kind alone. -/
def Value.toJson : Value → Json
  | .null => .string "null"
  | .int number => .object [("int", .integer number.toInt)]
  | .long number => .object [("long", .integer number.toInt)]
  | .text content => .object [("string", .string content)]

/-- The value under a kind. -/
def Value.ofKind (kind : String) (content : Json) : Option Value :=
  if kind = "null" then
    match content with
    | .null => some .null
    | _ => none
  else if kind = "int" then content.asInt32.map Value.int
  else if kind = "long" then content.asInt64.map Value.long
  else if kind = "string" then content.asString.map Value.text
  else none

/-- A value has exactly one kind; the absent one may also be a record with a null. -/
def Value.ofJson : Json → Option Value
  | .text letters => if Json.denoted letters = some "null" then some .null else none
  | .record [(kind, content)] => (Json.denoted kind).bind fun name => Value.ofKind name content
  | _ => none

def Interval.toJson (interval : Interval) : Json :=
  .object
    [("quark", .natural interval.quark), ("start", .natural interval.start),
      ("end", .natural interval.stop), ("value", interval.value.toJson)]

def Interval.ofJson (document : Json) : Option Interval :=
  match document.fields [["quark"], ["start"], ["end"], ["value"]] with
  | some [quark, start, stop, value] => do
      let quark ← quark.required Json.asNatural
      let start ← start.required Json.asNatural
      let stop ← stop.required Json.asNatural
      let value ← value.required Value.ofJson
      some ⟨quark, start, stop, value⟩
  | _ => none

def Ongoing.toJson (ongoing : Ongoing) : Json :=
  .object [("start", .natural ongoing.start), ("value", ongoing.value.toJson)]

def Ongoing.ofJson (document : Json) : Option Ongoing :=
  match document.fields [["start"], ["value"]] with
  | some [start, value] => do
      let start ← start.required Json.asNatural
      let value ← value.required Value.ofJson
      some ⟨start, value⟩
  | _ => none

def Operation.name : Operation → String
  | .modify => "modify"
  | .amend => "update_ongoing"

def Operation.ofName (name : String) : Option Operation :=
  if name = "modify" then some .modify
  else if name = "update_ongoing" then some .amend
  else none

def Operation.toJson (operation : Operation) : Json := .string operation.name

/-- An operation is its name, or a record with a null under its name. -/
def Operation.ofJson : Json → Option Operation
  | .text letters => (Json.denoted letters).bind Operation.ofName
  | .record [(name, .null)] => (Json.denoted name).bind Operation.ofName
  | _ => none

def Address.toJson : Address → Json
  | .segments names => .list (names.map Json.string)
  | .joined path => .string path

def Address.ofJson : Json → Option Address
  | .list items => (items.mapM Json.asString).map Address.segments
  | document => document.asString.map Address.joined

def Event.toJson (event : Event) : Json :=
  .object
    [("timestamp", .natural event.time), ("path", event.address.toJson),
      ("op", event.operation.toJson), ("value", event.value.toJson)]

/-- The time of an event has a short name too, and a missing value is absent. -/
def Event.ofJson (document : Json) : Option Event :=
  match document.fields [["timestamp", "ts"], ["path"], ["op"], ["value"]] with
  | some [time, address, operation, value] => do
      let time ← time.required Json.asNatural
      let address ← address.required Address.ofJson
      let operation ← operation.required Operation.ofJson
      let value ← value.orElse Value.ofJson .null
      some ⟨time, address, operation, value⟩
  | _ => none

def Config.toJson (config : Config) : Json :=
  .object
    [("path_separator", .string config.separator.toString),
      ("ignore_missing_ongoing", .bool config.ignoreMissing),
      ("slot_width", .natural config.slotWidth), ("quark_capacity", .natural config.capacity)]

/-- Every field that is missing has its default. -/
def Config.ofJson (document : Json) : Option Config :=
  match document.fields
      [["path_separator"], ["ignore_missing_ongoing"], ["slot_width"], ["quark_capacity"]] with
  | some [separator, ignoreMissing, slotWidth, capacity] => do
      let separator ← separator.orElse Json.asChar Config.default.separator
      let ignoreMissing ← ignoreMissing.orElse Json.asBool Config.default.ignoreMissing
      let slotWidth ← slotWidth.orElse Json.asNatural Config.default.slotWidth
      let capacity ← capacity.orElse Json.asNatural Config.default.capacity
      some ⟨separator, ignoreMissing, slotWidth, capacity⟩
  | _ => none

end Chronicle
