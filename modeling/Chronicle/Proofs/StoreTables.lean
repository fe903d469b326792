import Chronicle.Store.Basic
import Mathlib.Data.List.Basic

/-!
The effect of each store operation on the closed and the ongoing intervals of every quark.
-/

namespace Chronicle

/-- Both tables of a level store have the same length. -/
def Store.Level (store : Store) : Prop := store.closed.size = store.ongoing.size

/-- In the opened store the quark is ongoing from the start. -/
def Store.opened (store : Store) (quark : Quark) (start : Time) (value : Value) : Store :=
  let wide := store.widen quark
  { wide with ongoing := wide.ongoing.setIfInBounds quark (some ⟨start, value⟩) }

/-- In the shut store the interval is the last closed one of its quark. -/
def Store.shut (store : Store) (interval : Interval) : Store :=
  { closed := store.closed.modify interval.quark fun row => row.push interval
    ongoing := store.ongoing.setIfInBounds interval.quark none
    closedCount := store.closedCount + 1 }

/-- In the amended store the quark is ongoing as given. -/
def Store.amended (store : Store) (quark : Quark) (ongoing : Ongoing) : Store :=
  { store with ongoing := store.ongoing.setIfInBounds quark (some ongoing) }

theorem Store.open_done {store : Store} {quark : Quark} {start : Time}
    (granted : store.openFault quark start = none) (value : Value) :
    store.open quark start value = .done () (store.opened quark start value) := by
  simp only [Store.open, granted, Store.opened]

theorem Store.close_done {store : Store} {quark : Quark} {ongoing : Ongoing} {stop : Time}
    (held : store.ongoingOf quark = some ongoing)
    (granted : store.closeFault quark ongoing.start stop = none) :
    store.close quark stop ongoing.value =
      .done (ongoing.close quark stop) (store.shut (ongoing.close quark stop)) := by
  simp only [Store.close, held, granted, Store.shut, Ongoing.close]

theorem Store.amend_done {store : Store} {quark : Quark} {ongoing : Ongoing}
    (held : store.ongoingOf quark = some ongoing) (value : Value) :
    store.amend quark value =
      .done ongoing.value (store.amended quark { ongoing with value := value }) := by
  simp only [Store.amend, held, Store.amended]

theorem Store.amend_fail {store : Store} {quark : Quark}
    (idle : store.ongoingOf quark = none) (value : Value) :
    store.amend quark value = .fail (.notOngoing quark) store := by
  simp only [Store.amend, idle]

/-- Only a quark inside the table is ongoing. -/
theorem Store.ongoingOf_lt {store : Store} {quark : Quark} {ongoing : Ongoing}
    (held : store.ongoingOf quark = some ongoing) : quark < store.ongoing.size := by
  by_contra outside
  have missing : store.ongoing[quark]? = none := Array.getElem?_eq_none (by lia)
  simp [Store.ongoingOf, missing] at held

/-- In a level store an ongoing quark has a row of closed intervals. -/
theorem Store.Level.inside {store : Store} (level : store.Level) {quark : Quark} {ongoing : Ongoing}
    (held : store.ongoingOf quark = some ongoing) : quark < store.closed.size := by
  rw [level]
  exact store.ongoingOf_lt held

/-- The committed end is the end of the last closed interval. -/
theorem Store.committedEnd_eq (store : Store) (quark : Quark) :
    store.committedEnd quark = (store.intervalsOf quark).getLast?.map Interval.stop := by
  simp [Store.committedEnd, Store.intervalsOf]

section Widen

variable {store : Store}

theorem Store.level_widen (level : store.Level) (quark : Quark) : (store.widen quark).Level := by
  unfold Store.Level at *
  unfold Store.widen
  split
  · simp
    omega
  · exact level

theorem Store.lt_size_widen (store : Store) (quark : Quark) :
    quark < (store.widen quark).closed.size := by
  unfold Store.widen
  split
  · simp
    lia
  · lia

/-- New rows of the closed table are empty. -/
theorem Store.row_widen (store : Store) (quark other : Quark) :
    (store.widen quark).row other = store.row other := by
  unfold Store.widen
  split
  · simp only [Store.row, Array.getElem?_append, Array.getElem?_replicate]
    by_cases inside : other < store.closed.size
    · simp [inside]
    · rw [if_neg inside, Array.getElem?_eq_none (Nat.le_of_not_lt inside)]
      split <;> rfl
  · rfl

/-- The ongoing table loses nothing when it is as long as the closed one. -/
theorem Store.ongoingOf_widen (level : store.Level) (quark other : Quark) :
    (store.widen quark).ongoingOf other = store.ongoingOf other := by
  unfold Store.Level at level
  unfold Store.widen
  split
  · simp only [Store.ongoingOf, Array.getElem?_append, Array.getElem?_replicate,
      Array.getElem?_extract, Array.size_extract]
    by_cases inside : other < store.ongoing.size
    · rw [if_pos (by lia), if_pos (by lia), Nat.zero_add]
    · rw [if_neg (by lia), Array.getElem?_eq_none (Nat.le_of_not_lt inside)]
      split <;> rfl
  · rfl

theorem Store.allIntervals_widen (store : Store) (quark : Quark) :
    (store.widen quark).allIntervals = store.allIntervals := by
  unfold Store.widen
  split
  · simp [Store.allIntervals, List.flatMap_replicate]
  · rfl

end Widen

section Opened

variable {store : Store} {quark : Quark} {start : Time} {value : Value}

theorem Store.level_opened (level : store.Level) : (store.opened quark start value).Level := by
  have wide := store.level_widen level quark
  simpa [Store.Level, Store.opened] using wide

theorem Store.intervalsOf_opened (other : Quark) :
    (store.opened quark start value).intervalsOf other = store.intervalsOf other := by
  exact congrArg Array.toList (store.row_widen quark other)

theorem Store.ongoingOf_opened (level : store.Level) (other : Quark) :
    (store.opened quark start value).ongoingOf other =
      if other = quark then some ⟨start, value⟩ else store.ongoingOf other := by
  have inside := store.lt_size_widen quark
  rw [store.level_widen level quark] at inside
  rw [← store.ongoingOf_widen level quark other]
  simp only [Store.opened, Store.ongoingOf, Array.getElem?_setIfInBounds]
  by_cases same : other = quark
  · subst other
    simp [inside]
  · simp [same, Ne.symm same]

theorem Store.allIntervals_opened :
    (store.opened quark start value).allIntervals = store.allIntervals :=
  store.allIntervals_widen quark

theorem Store.closedCount_opened :
    (store.opened quark start value).closedCount = store.closedCount := by
  simp only [Store.opened, Store.widen]
  split <;> rfl

end Opened

section Shut

variable {store : Store} {interval : Interval}

theorem Store.level_shut (level : store.Level) : (store.shut interval).Level := by
  simpa [Store.Level, Store.shut] using level

theorem Store.intervalsOf_shut (inside : interval.quark < store.closed.size) (other : Quark) :
    (store.shut interval).intervalsOf other =
      if other = interval.quark then store.intervalsOf other ++ [interval]
      else store.intervalsOf other := by
  simp only [Store.intervalsOf, Store.row, Store.shut, Array.getElem?_modify]
  by_cases same : other = interval.quark
  · simp [same, inside]
  · simp [same, Ne.symm same]

theorem Store.ongoingOf_shut (other : Quark) :
    (store.shut interval).ongoingOf other =
      if other = interval.quark then none else store.ongoingOf other := by
  simp only [Store.ongoingOf, Store.shut, Array.getElem?_setIfInBounds]
  by_cases same : other = interval.quark
  · subst other
    simp only [if_pos trivial]
    split <;> rfl
  · simp [same, Ne.symm same]

/-- One row grows by one interval, and all other rows stay. -/
theorem Store.length_allIntervals_shut (inside : interval.quark < store.closed.size) :
    (store.shut interval).allIntervals.length = store.allIntervals.length + 1 := by
  have bound : interval.quark < store.closed.toList.length := by simpa using inside
  have around : store.closed.toList = store.closed.toList.take interval.quark ++
      store.closed.toList[interval.quark] :: store.closed.toList.drop (interval.quark + 1) := by
    rw [← List.drop_eq_getElem_cons, List.take_append_drop]
  have before : store.allIntervals.length = ((store.closed.toList.take interval.quark ++
      store.closed.toList[interval.quark] ::
        store.closed.toList.drop (interval.quark + 1)).flatMap Array.toList).length := by
    rw [← around, Store.allIntervals]
  rw [before]
  simp only [Store.allIntervals, Store.shut, Array.toList_modify,
    List.modify_eq_take_cons_drop bound, List.flatMap_append, List.flatMap_cons,
    List.length_append, Array.toList_push, List.length_singleton]
  omega

end Shut

section Amended

variable {store : Store} {quark : Quark} {ongoing : Ongoing}

theorem Store.level_amended (level : store.Level) : (store.amended quark ongoing).Level := by
  simpa [Store.Level, Store.amended] using level

@[simp] theorem Store.intervalsOf_amended (other : Quark) :
    (store.amended quark ongoing).intervalsOf other = store.intervalsOf other := rfl

theorem Store.ongoingOf_amended (inside : quark < store.ongoing.size) (other : Quark) :
    (store.amended quark ongoing).ongoingOf other =
      if other = quark then some ongoing else store.ongoingOf other := by
  simp only [Store.ongoingOf, Store.amended, Array.getElem?_setIfInBounds]
  by_cases same : other = quark
  · subst other
    simp [inside]
  · simp [same, Ne.symm same]

@[simp] theorem Store.allIntervals_amended :
    (store.amended quark ongoing).allIntervals = store.allIntervals := rfl

end Amended

end Chronicle
