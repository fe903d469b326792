import Chronicle.Value

/-!
Times, attribute numbers, and the intervals during which an attribute holds one value.
-/

namespace Chronicle

/-- A quark numbers an attribute; quarks are given out densely from zero and never reused. -/
abbrev Quark := Nat

/-- A time counts ticks from zero. -/
abbrev Time := Nat

/-- Times and numbers that are read from a text stay below this bound of 64 bits. -/
def wordBound : Nat := 18446744073709551616

/-- An interval says which value a quark held from its start to its end, both included. -/
structure Interval where
  quark : Quark
  start : Time
  stop : Time
  value : Value
  deriving DecidableEq, Inhabited

/-- The interval covers one time. -/
def Interval.contains (interval : Interval) (time : Time) : Bool :=
  interval.start ≤ time && time ≤ interval.stop

/-- The interval shares a time with the window from `first` to `last`. -/
def Interval.intersects (interval : Interval) (first last : Time) : Bool :=
  interval.start ≤ last && first ≤ interval.stop

/-- An instant has duration zero. -/
def Interval.duration (interval : Interval) : Nat :=
  interval.stop - interval.start

/-- An ongoing interval has a start and no end yet. -/
structure Ongoing where
  start : Time
  value : Value
  deriving DecidableEq, Inhabited

/-- An ongoing interval that stops becomes a closed one. -/
def Ongoing.close (ongoing : Ongoing) (quark : Quark) (stop : Time) : Interval :=
  ⟨quark, ongoing.start, stop, ongoing.value⟩

end Chronicle
