import Chronicle.Config
import Chronicle.Interval
import Chronicle.Toml.Reader

/-!
Configurations as TOML texts. Entries that a configuration does not know are passed over, and what
is missing has its default.
-/

namespace Chronicle

/-- A configuration text is refused as such, or for what it says. -/
inductive SettingsError where
  | malformed
  | invalid (fault : ConfigFault)
  deriving DecidableEq

def SettingsError.message : SettingsError → String
  | .malformed => "Failed to parse TOML state configuration"
  | .invalid fault => fault.message

namespace Toml

/-- A character is a string of length one. -/
def asChar : Toml → Option Char
  | .text [c] => some c
  | _ => none

def asBool : Toml → Option Bool
  | .boolean flag => some flag
  | _ => none

def asNatural : Toml → Option Nat
  | .integer number => if 0 ≤ number then some number.toNat else none
  | _ => none

/-- The entry under a key, or a default where there is none. -/
def setting {A : Type} (entries : Entries) (key : String) (decode : Toml → Option A)
    (default : A) : Option A :=
  match entries.lookup key with
  | none => some default
  | some document => decode document

end Toml

/-- The configuration that the entries of a text set. -/
def Config.ofToml (entries : Toml.Entries) : Option Config := do
  let separator ← Toml.setting entries "path_separator" Toml.asChar Config.default.separator
  let ignoreMissing ←
    Toml.setting entries "ignore_missing_ongoing" Toml.asBool Config.default.ignoreMissing
  let slotWidth ← Toml.setting entries "slot_width" Toml.asNatural Config.default.slotWidth
  let capacity ← Toml.setting entries "quark_capacity" Toml.asNatural Config.default.capacity
  some ⟨separator, ignoreMissing, slotWidth, capacity⟩

/-- A configuration without faults, read from a text. -/
def Config.read (content : String) : Except SettingsError Config :=
  match (Toml.read content).bind Config.ofToml with
  | none => .error .malformed
  | some config =>
      match config.fault with
      | some fault => .error (.invalid fault)
      | none => .ok config

end Chronicle
