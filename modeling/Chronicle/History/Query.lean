import Chronicle.History.Basic
import Chronicle.Store.Search

/-!
Questions to a history: the attribute at a path, the value at a time, and the intervals in a window
of time. A window remembers positions in a row of closed intervals, which only grows at its end, and
copies the ongoing interval, so it reads the same later on.
-/

namespace Chronicle

/-- The attribute at a path that is given as a text. -/
def History.lookup (history : History) (separator : Char) (path : String) : Option Quark :=
  history.tree.find none (Path.split path separator)

/-- The attribute at a path, or an error that names the path as it was given. -/
def History.lookupOrFail (history : History) (separator : Char) (path : String) :
    Except HistoryError Quark :=
  match history.lookup separator path with
  | some quark => .ok quark
  | none => .error (.unknownPath path)

/-- The attributes whose path fits a pattern; a pattern without segments fits nothing. -/
def History.matching (history : History) (separator : Char) (pattern : String) : List Quark :=
  history.tree.matching none (Path.split pattern separator)

/-- The value of an attribute at a time, absent where no interval covers the time. -/
def History.valueAt (history : History) (quark : Quark) (time : Time) :
    Except HistoryError Value :=
  if history.tree.contains quark then .ok (history.store.valueAt quark time)
  else .error (.unknownQuark quark)

/-- The value of the attribute at a path. -/
def History.valueAtPath (history : History) (separator : Char) (path : String) (time : Time) :
    Except HistoryError Value :=
  (history.lookupOrFail separator path).map fun quark => history.store.valueAt quark time

/-- An unknown path has an absent value. -/
def History.valueOrNull (history : History) (separator : Char) (path : String) (time : Time) :
    Value :=
  match history.valueAtPath separator path time with
  | .ok value => value
  | .error _ => .null

/-- A window selects a part of the closed intervals of a quark by position, and may end with a copy
of the interval that was ongoing when the window was made. -/
structure Window where
  quark : Quark
  first : Nat
  last : Nat
  ongoing : Option Interval
  deriving DecidableEq, Inhabited

/-- The ongoing interval counts as reaching up to the latest time of the history. -/
def History.ongoingInWindow (history : History) (quark : Quark) (last : Time) :
    Option Interval :=
  ((history.store.ongoingOf quark).filter fun ongoing => ongoing.start ≤ last).map
    fun ongoing => ongoing.close quark (max (history.latestTime.getD ongoing.start) ongoing.start)

/-- The window of a quark from one time to another. -/
def History.window (history : History) (quark : Quark) (first last : Time) :
    Except HistoryError Window :=
  if last < first then .error (.endBeforeStart quark first last)
  else if history.tree.contains quark then
    let bounds := history.store.windowBounds quark first last
    .ok ⟨quark, bounds.1, bounds.2, history.ongoingInWindow quark last⟩
  else .error (.unknownQuark quark)

/-- The window of the attribute at a path. -/
def History.windowOfPath (history : History) (separator : Char) (path : String)
    (first last : Time) : Except HistoryError Window :=
  (history.lookupOrFail separator path).bind fun quark => history.window quark first last

/-- The number of intervals that a window selects. -/
def Window.size (window : Window) : Nat :=
  (window.last - window.first) + (if window.ongoing.isSome then 1 else 0)

def Window.isEmpty (window : Window) : Bool := window.size = 0

/-- A cursor is a position in a window that is being read. -/
structure Cursor where
  next : Nat
  ongoingRead : Bool
  deriving DecidableEq

def Window.cursor (window : Window) : Cursor := ⟨window.first, false⟩

/-- The number of intervals that a cursor has still to read. -/
def Window.remaining (window : Window) (cursor : Cursor) : Nat :=
  (window.last - cursor.next)
    + (if !cursor.ongoingRead && window.ongoing.isSome then 1 else 0)

/-- One step reads the next closed interval, and after those the ongoing one. -/
def Window.step (window : Window) (history : History) (cursor : Cursor) :
    Option Interval × Cursor :=
  if cursor.next < window.last then
    ((history.store.row window.quark)[cursor.next]?, { cursor with next := cursor.next + 1 })
  else if cursor.ongoingRead then (none, cursor)
  else (window.ongoing, { cursor with ongoingRead := true })

/-- Reading pairs every interval with the number that remained before it, and ends with the number
that remained at the end. -/
def Window.readFrom (window : Window) (history : History) :
    Nat → Cursor → List (Nat × Interval) × Nat
  | 0, cursor => ([], window.remaining cursor)
  | steps + 1, cursor =>
      match window.step history cursor with
      | (none, _) => ([], window.remaining cursor)
      | (some interval, moved) =>
          let rest := window.readFrom history steps moved
          ((window.remaining cursor, interval) :: rest.1, rest.2)

/-- A whole reading starts anew each time and takes one step per selected interval. -/
def Window.read (window : Window) (history : History) : List (Nat × Interval) × Nat :=
  window.readFrom history (window.size + 1) window.cursor

/-- The intervals that a window selects, as the history has them now. -/
def Window.intervals (window : Window) (history : History) : List Interval :=
  (window.read history).1.map Prod.snd

/-- The numbers that remained before each interval and at the end. -/
def Window.counts (window : Window) (history : History) : List Nat :=
  (window.read history).1.map Prod.fst ++ [(window.read history).2]

end Chronicle
