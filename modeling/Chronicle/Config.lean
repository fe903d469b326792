/-!
The configuration of a history and of the lanes that write into it.
-/

namespace Chronicle

/-- A configuration fixes how paths are written, whether amending an attribute that was never
opened is tolerated, how wide lane names are, and how much room to set aside. -/
structure Config where
  separator : Char
  ignoreMissing : Bool
  slotWidth : Nat
  capacity : Nat
  deriving DecidableEq

def Config.default : Config := ⟨'/', true, 3, 1024⟩

instance : Inhabited Config := ⟨.default⟩

/-- The strict configuration tolerates no amendment of an attribute that was never opened. -/
def Config.strict : Config := { Config.default with ignoreMissing := false }

/-- A configuration is refused for one of these reasons. -/
inductive ConfigFault where
  | noSlotWidth
  | noCapacity
  | wildcardSeparator
  deriving DecidableEq

def ConfigFault.message : ConfigFault → String
  | .noSlotWidth => "slot_width must be >= 1"
  | .noCapacity => "quark_capacity must be >= 1"
  | .wildcardSeparator => "path_separator cannot be the wildcard '*'"

/-- The first fault of a configuration, if it has any. -/
def Config.fault (config : Config) : Option ConfigFault :=
  if config.slotWidth = 0 then some .noSlotWidth
  else if config.capacity = 0 then some .noCapacity
  else if config.separator = '*' then some .wildcardSeparator
  else none

end Chronicle
