import Chronicle.History.Snapshot
import Chronicle.Replay

/-!
What a report holds: the summary of a replay, and the answer to one question.
-/

namespace Chronicle

/-- A summary counts what a replay applied and says which span of time the history covers. -/
structure Summary where
  events : Nat
  modifications : Nat
  updates : Nat
  ignoredUpdates : Nat
  attributes : Nat
  intervals : Nat
  startTime : Option Time
  endTime : Option Time
  deriving DecidableEq, Inhabited

/-- The summary of a replay, with the counters that it has now. -/
def Replay.summary (replay : Replay) : Summary :=
  { events := replay.counters.events
    modifications := replay.counters.modifications
    updates := replay.counters.updates
    ignoredUpdates := replay.counters.ignoredUpdates
    attributes := replay.counters.quarks
    intervals := replay.counters.intervals
    startTime := replay.history.startTime
    endTime := replay.counters.endTime }

/-- An answer is the summary alone, a value at a time, the intervals of a window, or a
snapshot. -/
inductive Answer where
  | summary
  | point (path : String) (time : Time) (value : Value)
  | range (path : String) (intervals : List Interval)
  | snapshot (time : Time) (states : Snapshot)
  deriving DecidableEq

namespace Report

/-- A point is the value of one path at one time. -/
structure Point where
  path : String
  time : Time
  value : Value
  deriving DecidableEq

/-- A span is an interval under the path of its attribute. -/
structure Span where
  path : String
  start : Time
  stop : Time
  value : Value
  deriving DecidableEq

def Span.ofInterval (path : String) (interval : Interval) : Span :=
  ⟨path, interval.start, interval.stop, interval.value⟩

/-- The states of all attributes at one time. -/
structure States where
  time : Time
  attributes : Snapshot
  deriving DecidableEq

end Report

/-- A report is for readers, for programs, or for tables. -/
inductive Format where
  | text
  | json
  | csv
  deriving DecidableEq

def Format.ofName (name : String) : Option Format :=
  if name = "text" then some .text
  else if name = "json" then some .json
  else if name = "csv" then some .csv
  else none

end Chronicle
