import Chronicle.Store.Basic
import Chronicle.Tree.Traversal

/-!
A history: a tree of attributes, the store of their intervals, and the span of accepted times.
Writes arrive in the order of time, and a closed history takes no more of them.
-/

namespace Chronicle

/-- A history knows its first and its latest accepted time once a write was accepted. -/
structure History where
  tree : Tree
  store : Store
  startTime : Option Time
  latestTime : Option Time
  closed : Bool
  deriving DecidableEq, Inhabited

def History.empty : History := ⟨.empty, .empty, none, none, false⟩

def History.withTree (history : History) (tree : Tree) : History :=
  { history with tree := tree }

def History.withStore (history : History) (store : Store) : History :=
  { history with store := store }

/-- An accepted write moves the latest time, and the first one also sets the start. -/
def History.advance (history : History) (time : Time) : History :=
  { history with
    startTime := some (history.startTime.getD time)
    latestTime := some time }

/-- A write is refused on a closed history and before the latest accepted time. -/
def History.writeFault (history : History) (time : Time) : Option HistoryError :=
  if history.closed then some .closedHistory
  else
    match history.latestTime with
    | some latest => if time < latest then some (.timeBeforeLatest time latest) else none
    | none => none

/-- Resolving a path creates what is missing while the history is open. -/
def History.resolve (history : History) (parent : Option Quark) (path : List String) :
    Attempt History Quark :=
  match history.tree.find parent path with
  | some quark => .done quark history
  | none =>
      if history.closed then .fail .closedHistory history
      else (history.tree.resolve parent path).within history.withTree

/-- Resolving a path that is given as a text. -/
def History.resolveText (history : History) (separator : Char) (path : String) :
    Attempt History Quark :=
  history.resolve none (Path.split path separator)

/-- Locating a path only reads; a missing path is reported with its segments joined. -/
def History.locate (history : History) (separator : Char) (parent : Option Quark)
    (path : List String) : Except HistoryError Quark :=
  match history.tree.find parent path with
  | some quark => .ok quark
  | none => .error (.unknownPath (Path.join path separator))

/-- The quark holds the value from the time on, and its previous interval ends just before. -/
def History.modify (history : History) (time : Time) (quark : Quark) (value : Value) :
    Attempt History Unit :=
  match history.writeFault time with
  | some error => .fail error history
  | none =>
      if history.tree.contains quark then
        ((history.store.record quark time value).within history.withStore).andThen
          fun _ written => .done () (written.advance time)
      else .fail (.unknownQuark quark) history

/-- The value of the ongoing interval is replaced without a new boundary. -/
def History.amend (history : History) (quark : Quark) (value : Value) : Attempt History Unit :=
  if history.closed then .fail .closedHistory history
  else
    ((history.store.amend quark value).within history.withStore).andThen
      fun _ written => .done () written

/-- An amendment with a time keeps the order of time and becomes the latest write. -/
def History.amendAt (history : History) (time : Time) (quark : Quark) (value : Value) :
    Attempt History Unit :=
  match history.writeFault time with
  | some error => .fail error history
  | none =>
      ((history.store.amend quark value).within history.withStore).andThen
        fun _ written => .done () (written.advance time)

/-- Closing ends every ongoing interval and freezes the history. The answer counts the intervals
that were ongoing. -/
def History.close (history : History) (time : Time) : Attempt History Nat :=
  match history.writeFault time with
  | some error => .fail error history
  | none =>
      let ongoing := history.store.allOngoing
      ((history.store.closeAll time ongoing).within history.withStore).andThen
        fun _ written => .done ongoing.length { written.advance time with closed := true }

end Chronicle
