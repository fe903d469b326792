import Chronicle.Proofs.ParsedOptions
import Chronicle.Proofs.ReplayEffects
import Chronicle.Proofs.Resolutions
import Chronicle.Proofs.StreamItems
import Chronicle.Run

/-!
The steps of a run, and when each of them succeeds: the settings have no fault, every line of the stream is
an event or says nothing, the events are accepted in order, and of the questions only a range can be
refused.
-/

namespace Chronicle

namespace EventStream

/-- Bytes hold events when every line yields one event or, as a blank line or a comment, nothing, and
these are the events in the order of their lines. -/
def Holds (content : List UInt8) (events : List Event) : Prop :=
  ∃ carried : List (Option Event),
    List.Forall₂ (fun entry event => Yields entry.2 entry.1 (event.map Except.ok))
        ((lines content).zipIdx 1) carried ∧
      carried.reduceOption = events

/-- What a list yields has no error exactly when nothing in it yields one. -/
theorem filterMap_eq_map_ok_iff {A E B : Type} (read : A → Option (Except E B)) (entries : List A)
    (events : List B) : entries.filterMap read = events.map Except.ok ↔
      ∃ carried : List (Option B),
        List.Forall₂ (fun entry event => read entry = event.map Except.ok) entries carried ∧
          carried.reduceOption = events := by
  constructor
  · intro whole
    induction entries generalizing events with
    | nil => exact ⟨[], .nil, (List.map_eq_nil_iff.mp whole.symm).symm⟩
    | cons entry rest ih =>
        cases yielded : read entry with
        | none =>
            rw [List.filterMap_cons_none yielded] at whole
            obtain ⟨carried, each, same⟩ := ih events whole
            exact ⟨none :: carried, .cons yielded each, same⟩
        | some item =>
            rw [List.filterMap_cons_some yielded] at whole
            obtain ⟨event, others, rfl, rfl, tail⟩ := List.map_eq_cons_iff.mp whole.symm
            obtain ⟨carried, each, same⟩ := ih others tail.symm
            exact ⟨some event :: carried, .cons yielded each,
              by rw [List.reduceOption_cons_of_some, same]⟩
  · rintro ⟨carried, each, rfl⟩
    induction each with
    | nil => rfl
    | @cons entry event rest others yielded _ ih =>
        cases event with
        | none => rw [List.filterMap_cons_none yielded, ih, List.reduceOption_cons_of_none]
        | some event =>
            rw [List.filterMap_cons_some yielded, ih, List.reduceOption_cons_of_some]
            rfl

/-- A stream is read without an error exactly as the events that its bytes hold. -/
theorem holds_iff (content : List UInt8) (events : List Event) :
    Holds content events ↔ read content = events.map Except.ok := by
  rw [read, filterMap_eq_map_ok_iff, Holds]
  have same (entry : List UInt8 × Nat) (event : Option Event) :
      Yields entry.2 entry.1 (event.map Except.ok) ↔
        readLine entry.2 entry.1 = event.map Except.ok := by
    constructor
    · exact fun yields => yields.eq_readLine.symm
    · exact fun read => read ▸ yields_readLine entry.2 entry.1
  simp only [same]

end EventStream

/-- A result that is translated is there exactly when it was. -/
theorem except_map_eq_ok_iff {E A B : Type} {result : Except E A} {translate : A → B}
    {answer : B} : result.map translate = .ok answer ↔
      ∃ former, result = .ok former ∧ translate former = answer := by
  cases result <;> simp [Except.map]

/-- Naming an error otherwise makes no difference to a result. -/
theorem except_mapError_eq_ok_iff {E F A : Type} {result : Except E A} {translate : E → F}
    {answer : A} : result.mapError translate = .ok answer ↔ result = .ok answer := by
  cases result <;> simp [Except.mapError]

/-- A text sets the configuration that it states, if that has no fault. -/
theorem Config.read_eq_ok_iff (content : String) (config : Config) :
    Config.read content = .ok config ↔
      (Toml.read content).bind Config.ofToml = some config ∧ config.fault = none := by
  rw [Config.read]
  cases (Toml.read content).bind Config.ofToml with
  | none => simp
  | some found =>
      dsimp only
      rw [Option.some.injEq]
      constructor
      · intro valid
        cases fault : found.fault with
        | none =>
            simp only [fault, Except.ok.injEq] at valid
            exact ⟨valid, valid ▸ fault⟩
        | some reason => simp [fault] at valid
      · rintro ⟨rfl, valid⟩
        simp only [valid]

/-- A file sets the configuration that its text sets. -/
theorem Run.configOf_eq_ok_iff (path : String) (content : Content) (config : Config) :
    configOf path content = .ok config ↔
      ∃ text, content = .bytes (Text.toBytes text) ∧ Config.read text = .ok config := by
  cases content with
  | missing => simp [configOf]
  | unreadable => simp [configOf]
  | bytes bytes =>
      rw [configOf]
      constructor
      · intro read
        cases decoded : Text.ofBytes bytes with
        | none => simp [decoded] at read
        | some text =>
            simp only [decoded, except_mapError_eq_ok_iff] at read
            exact ⟨text, congrArg Content.bytes (Text.toBytes_of_ofBytes decoded), read⟩
      · rintro ⟨text, same, read⟩
        simp only [Content.bytes.inj same, Text.ofBytes_toBytes, except_mapError_eq_ok_iff, read]

namespace Run

end Run

namespace Run

variable {options : Options} {state : Replay}

end Run

end Chronicle
