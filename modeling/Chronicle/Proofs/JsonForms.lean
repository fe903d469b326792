import Chronicle.Json.Forms
import Chronicle.Proofs.JsonDocuments

/-!
Values, operations, addresses and events are decoded from their JSON form, which is a plain
document.
-/

namespace Chronicle

namespace Json

@[simp] theorem asString_string (content : String) :
    (Json.string content).asString = some content :=
  denoted_letters content

theorem asNatural_natural {number : Nat} (small : number < wordBound) :
    (Json.natural number).asNatural = some number := by
  have inside : (0 : Int) ≤ number ∧ (number : Int) < wordBound := by omega
  simp [natural, asNatural, asIntegerWithin, inside]

theorem asInt32_toInt (number : Int32) : (Json.integer number.toInt).asInt32 = some number := by
  have inside : -2147483648 ≤ number.toInt ∧ number.toInt < 2147483648 :=
    ⟨number.le_toInt, number.toInt_lt⟩
  simp [asInt32, asIntegerWithin, inside]

theorem asInt64_toInt (number : Int64) : (Json.integer number.toInt).asInt64 = some number := by
  have inside : -9223372036854775808 ≤ number.toInt ∧ number.toInt < 9223372036854775808 :=
    ⟨number.le_toInt, number.toInt_lt⟩
  simp [asInt64, asIntegerWithin, inside]

/-- What is written item by item is decoded item by item. -/
theorem mapM_map_of_mem {A B C : Type} {encode : A → B} {decode : B → Option C} {content : A → C}
    {items : List A} (each : ∀ item ∈ items, decode (encode item) = some (content item)) :
    (items.map encode).mapM decode = some (items.map content) := by
  induction items with
  | nil => rfl
  | cons item rest ih =>
      rw [List.forall_mem_cons] at each
      simp [each.1, ih each.2]

theorem mapM_map_of_undoes {A B : Type} {encode : A → B} {decode : B → Option A} {items : List A}
    (undoes : ∀ item ∈ items, decode (encode item) = some item) :
    (items.map encode).mapM decode = some items := by
  have all : (items.map encode).mapM decode = some (items.map id) := mapM_map_of_mem undoes
  rwa [List.map_id] at all

theorem fields_object (names : List (List String)) (given : List (String × Json)) :
    (Json.object given).fields names = names.mapM (givenIn given) := by
  have named : namedFields (given.map fun field => (letters field.1, field.2)) = some given :=
    mapM_map_of_undoes fun field _ => by simp
  rw [object, fields, named, Option.bind_some]

end Json

/-- Every value is decoded from its form. -/
theorem Value.ofJson_toJson (value : Value) : Value.ofJson value.toJson = some value := by
  cases value with
  | null => rfl
  | int number => simp [toJson, Json.object, ofJson, ofKind, Json.asInt32_toInt]
  | long number => simp [toJson, Json.object, ofJson, ofKind, Json.asInt64_toInt]
  | text content => simp [toJson, Json.object, ofJson, ofKind]

theorem Operation.ofJson_toJson (operation : Operation) :
    Operation.ofJson operation.toJson = some operation := by
  cases operation <;> rfl

/-- An address keeps its kind. -/
theorem Address.ofJson_toJson (address : Address) :
    Address.ofJson address.toJson = some address := by
  cases address with
  | segments names =>
      rw [toJson, ofJson, Json.mapM_map_of_undoes fun name _ => Json.asString_string name,
        Option.map_some]
  | joined path =>
      rw [toJson, ofJson, Json.asString_string, Option.map_some]
      intro items same
      cases same

/-- An event is decoded field by field. -/
theorem Event.ofJson_object (time address operation value : Json) :
    Event.ofJson (.object
        [("timestamp", time), ("path", address), ("op", operation), ("value", value)]) = (do
      let time ← time.asNatural
      let address ← Address.ofJson address
      let operation ← Operation.ofJson operation
      let value ← Value.ofJson value
      some ⟨time, address, operation, value⟩) := by
  -- By computation, since the fields are any documents; on a time the word bound would unfold.
  have found : [["timestamp", "ts"], ["path"], ["op"], ["value"]].mapM (Json.givenIn
      [("timestamp", time), ("path", address), ("op", operation), ("value", value)]) =
      some [.document time, .document address, .document operation, .document value] := rfl
  rw [ofJson, Json.fields_object, found]
  rfl

/-- An event at a time of one machine word is decoded from its form. -/
theorem Event.ofJson_toJson (event : Event) (word : event.time < wordBound) :
    Event.ofJson event.toJson = some event := by
  rw [toJson, ofJson_object, Json.asNatural_natural word, Address.ofJson_toJson,
    Operation.ofJson_toJson, Value.ofJson_toJson]
  rfl

theorem Value.plain_toJson (value : Value) : value.toJson.Plain := by
  cases value with
  | null => exact Json.Plain.string "null"
  | int number => exact Json.Plain.object (by simpa using Json.Plain.integer _)
  | long number => exact Json.Plain.object (by simpa using Json.Plain.integer _)
  | text content => exact Json.Plain.object (by simpa using Json.Plain.string content)

theorem Address.plain_toJson (address : Address) : address.toJson.Plain := by
  cases address with
  | segments names =>
      apply Json.Plain.list
      intro item member
      obtain ⟨name, _, rfl⟩ := List.mem_map.mp member
      exact Json.Plain.string name
  | joined path => exact Json.Plain.string path

/-- The form of an event is a plain record. -/
theorem Event.plain_toJson (event : Event) : event.toJson.Plain := by
  apply Json.Plain.object
  simp only [List.forall_mem_cons, List.not_mem_nil]
  exact ⟨Json.Plain.integer event.time, event.address.plain_toJson,
    Json.Plain.string event.operation.name, event.value.plain_toJson, nofun⟩

end Chronicle
