import Chronicle.Report.Basic

/-!
Reports for readers: one line per fact.
-/

namespace Chronicle.Report

/-- Lines joined, each with its line feed. -/
def unlines (lines : List String) : String :=
  String.join (lines.map fun line => line ++ "\n")

/-- An unknown time is written as a dash. -/
def bound : Option Time → String
  | none => "-"
  | some time => toString time

def plainSummary (summary : Summary) : List String :=
  ["events:          " ++ toString summary.events,
    "modifications:   " ++ toString summary.modifications,
    "updates:         " ++ toString summary.updates,
    "ignored updates: " ++ toString summary.ignoredUpdates,
    "attributes:      " ++ toString summary.attributes,
    "intervals:       " ++ toString summary.intervals,
    "time range:      [" ++ bound summary.startTime ++ ", " ++ bound summary.endTime ++ "]"]

def plainInterval (path : String) (interval : Interval) : String :=
  "[" ++ toString interval.start ++ ", " ++ toString interval.stop ++ "] " ++ path ++ " = "
    ++ interval.value.display

/-- The lines of an answer. -/
def plainLines (answer : Answer) (summary : Summary) : List String :=
  match answer with
  | .summary => plainSummary summary
  | .point path time value => [path ++ " @ " ++ toString time ++ " = " ++ value.display]
  | .range path intervals => intervals.map (plainInterval path)
  | .snapshot _ states => states.map fun entry => entry.1 ++ " = " ++ entry.2.display

def plain (answer : Answer) (summary : Summary) : String := unlines (plainLines answer summary)

end Chronicle.Report
