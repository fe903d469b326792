import Chronicle.History.Query

/-!
The whole of a history: the values of all attributes at one time, and the export of all paths and
closed intervals.
-/

namespace Chronicle

/-- A snapshot gives values by path, in ascending order of the paths, each path once. -/
abbrev Snapshot := List (String × Value)

/-- A path that is already there takes the new value. -/
def Snapshot.insert (path : String) (value : Value) : Snapshot → Snapshot
  | [] => [(path, value)]
  | (first, held) :: rest =>
      if path < first then (path, value) :: (first, held) :: rest
      else if path = first then (path, value) :: rest
      else (first, held) :: Snapshot.insert path value rest

/-- Of several values for one path the last counts. -/
def Snapshot.ofList (entries : List (String × Value)) : Snapshot :=
  entries.foldl (fun snapshot entry => Snapshot.insert entry.1 entry.2 snapshot) []

/-- The path and the value of every attribute at a time, in creation order. -/
def History.statesAt (history : History) (separator : Char) (time : Time) :
    List (String × Value) :=
  history.tree.quarks.filterMap fun quark =>
    (history.tree.pathOf quark separator).map fun path =>
      (path, history.store.valueAt quark time)

/-- The snapshot of all attributes at a time. -/
def History.snapshot (history : History) (separator : Char) (time : Time) : Snapshot :=
  Snapshot.ofList (history.statesAt separator time)

/-- An exported attribute is a quark with its path. -/
structure ExportedAttribute where
  quark : Quark
  path : String
  deriving DecidableEq

/-- An export lists the paths of all attributes and all closed intervals. -/
structure Export where
  startTime : Option Time
  endTime : Option Time
  attributes : List ExportedAttribute
  intervals : List Interval
  deriving DecidableEq

def History.export (history : History) (separator : Char) : Export :=
  { startTime := history.startTime
    endTime := history.latestTime
    attributes := history.tree.quarks.filterMap fun quark =>
      (history.tree.pathOf quark separator).map fun path => ⟨quark, path⟩
    intervals := history.store.allIntervals }

end Chronicle
