import Chronicle.Path
import Chronicle.Interval

/-!
Events: one change of one attribute at one time.
-/

namespace Chronicle

/-- An event starts a new interval or amends the ongoing one. -/
inductive Operation where
  | modify
  | amend
  deriving DecidableEq

/-- An address is a list of segments, which is never split, or a path with separators. -/
inductive Address where
  | segments (names : List String)
  | joined (path : String)
  deriving DecidableEq

/-- The segments that an address names. -/
def Address.resolve (address : Address) (separator : Char) : List String :=
  match address with
  | .segments names => names
  | .joined path => Path.split path separator

/-- An event gives an attribute a value at a time. -/
structure Event where
  time : Time
  address : Address
  operation : Operation
  value : Value
  deriving DecidableEq

end Chronicle
