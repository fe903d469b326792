import Chronicle.HistoryError

/-!
The store of intervals. Every quark has a list of closed intervals, which only grows at its end,
and at most one ongoing interval.
-/

namespace Chronicle

/-- A store keeps the closed and the ongoing intervals by quark, and counts the closed ones. -/
structure Store where
  closed : Array (Array Interval)
  ongoing : Array (Option Ongoing)
  closedCount : Nat
  deriving DecidableEq, Inhabited

def Store.empty : Store := ⟨#[], #[], 0⟩

/-- The closed intervals of a quark in the order in which they were closed. -/
def Store.row (store : Store) (quark : Quark) : Array Interval :=
  (store.closed[quark]?).getD #[]

def Store.intervalsOf (store : Store) (quark : Quark) : List Interval :=
  (store.row quark).toList

/-- All closed intervals, quark by quark. -/
def Store.allIntervals (store : Store) : List Interval :=
  store.closed.toList.flatMap Array.toList

def Store.ongoingOf (store : Store) (quark : Quark) : Option Ongoing :=
  (store.ongoing[quark]?).join

/-- All ongoing intervals in ascending order of their quarks. -/
def Store.allOngoing (store : Store) : List (Quark × Ongoing) :=
  store.ongoing.toList.zipIdx.filterMap fun entry => entry.1.map fun state => (entry.2, state)

/-- The end of the last closed interval of a quark. -/
def Store.committedEnd (store : Store) (quark : Quark) : Option Time :=
  (store.row quark).back?.map Interval.stop

/-- Both tables reach at least up to the quark. When the closed table has to grow, the ongoing
table takes the same length. -/
def Store.widen (store : Store) (quark : Quark) : Store :=
  if store.closed.size ≤ quark then
    { store with
      closed := store.closed ++ Array.replicate (quark + 1 - store.closed.size) #[]
      ongoing := store.ongoing.extract 0 (quark + 1)
        ++ Array.replicate (quark + 1 - store.ongoing.size) none }
  else store

/-- A new interval starts after all that is committed, and only where none is ongoing. -/
def Store.openFault (store : Store) (quark : Quark) (start : Time) : Option HistoryError :=
  match store.ongoingOf quark with
  | some ongoing => some (.alreadyOngoing quark ongoing.start)
  | none =>
      match store.committedEnd quark with
      | some committed =>
          if start ≤ committed then some (.endBeforeStart quark committed start) else none
      | none => none

/-- Opening starts an ongoing interval. -/
def Store.open (store : Store) (quark : Quark) (start : Time) (value : Value) :
    Attempt Store Unit :=
  match store.openFault quark start with
  | some error => .fail error store
  | none =>
      let wide := store.widen quark
      .done () { wide with ongoing := wide.ongoing.setIfInBounds quark (some ⟨start, value⟩) }

/-- An interval stops neither before it starts nor within what is committed. -/
def Store.closeFault (store : Store) (quark : Quark) (start stop : Time) : Option HistoryError :=
  if stop < start then some (.endBeforeStart quark start stop)
  else
    match store.committedEnd quark with
    | some committed =>
        if stop ≤ committed then some (.endBeforeStart quark committed stop) else none
    | none => none

/-- Closing moves the ongoing interval, under the given value, to the closed ones. -/
def Store.close (store : Store) (quark : Quark) (stop : Time) (value : Value) :
    Attempt Store Interval :=
  match store.ongoingOf quark with
  | none => .fail (.notOngoing quark) store
  | some ongoing =>
      match store.closeFault quark ongoing.start stop with
      | some error => .fail error store
      | none =>
          let interval : Interval := ⟨quark, ongoing.start, stop, value⟩
          .done interval
            { closed := store.closed.modify quark fun row => row.push interval
              ongoing := store.ongoing.setIfInBounds quark none
              closedCount := store.closedCount + 1 }

/-- Amending replaces the value of the ongoing interval and answers the value it had. -/
def Store.amend (store : Store) (quark : Quark) (value : Value) : Attempt Store Value :=
  match store.ongoingOf quark with
  | none => .fail (.notOngoing quark) store
  | some ongoing =>
      .done ongoing.value
        { store with
          ongoing := store.ongoing.setIfInBounds quark (some { ongoing with value := value }) }

/-- Recording lets the quark hold the value from the given time on. A second value for the time at
which the ongoing interval starts replaces the first. -/
def Store.record (store : Store) (quark : Quark) (time : Time) (value : Value) :
    Attempt Store Unit :=
  match store.ongoingOf quark with
  | none => store.open quark time value
  | some ongoing =>
      if ongoing.start = time then
        (store.amend quark value).andThen fun _ amended => .done () amended
      else
        (store.close quark (time - 1) ongoing.value).andThen fun _ shut =>
          shut.open quark time value

/-- Closing every listed interval stops at the first that fails. -/
def Store.closeAll (store : Store) (stop : Time) : List (Quark × Ongoing) → Attempt Store Unit
  | [] => .done () store
  | (quark, ongoing) :: rest =>
      (store.close quark stop ongoing.value).andThen fun _ shut => shut.closeAll stop rest

end Chronicle
