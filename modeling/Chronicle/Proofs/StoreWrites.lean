import Chronicle.Proofs.StoreTables
import Mathlib.Data.List.Nodup

/-!
Recording a change of one quark and closing all quarks, as effects on the timelines of the store.
-/

namespace Chronicle

/-- The timeline of a quark ends its ongoing interval at the given time. -/
def Store.timeline (store : Store) (quark : Quark) (stop : Time) : List Interval :=
  store.intervalsOf quark ++
    ((store.ongoingOf quark).map fun ongoing => ongoing.close quark stop).toList

/-- A change at the time cuts off the ongoing interval, unless that starts at the same time. -/
def Store.cut (store : Store) (quark : Quark) (time : Time) : Option Interval :=
  match store.ongoingOf quark with
  | none => none
  | some ongoing =>
      if ongoing.start = time then none else some (ongoing.close quark (time - 1))

/-- In the recorded store the quark holds the value from the time on. -/
def Store.recorded (store : Store) (quark : Quark) (time : Time) (value : Value) : Store :=
  match store.ongoingOf quark with
  | none => store.opened quark time value
  | some ongoing =>
      if ongoing.start = time then store.amended quark { ongoing with value := value }
      else (store.shut (ongoing.close quark (time - 1))).opened quark time value

/-- A quark is current when all that is committed for it lies before its ongoing interval, or
before the time where it has none, and its ongoing interval starts by the time. -/
structure Store.Current (store : Store) (quark : Quark) (time : Time) : Prop where
  idle : store.ongoingOf quark = none →
    ∀ last, (store.intervalsOf quark).getLast? = some last → last.stop < time
  started : ∀ ongoing, store.ongoingOf quark = some ongoing → ongoing.start ≤ time
  committed : ∀ ongoing, store.ongoingOf quark = some ongoing →
    ∀ last, (store.intervalsOf quark).getLast? = some last → last.stop < ongoing.start

theorem Store.openFault_eq_none {store : Store} {quark : Quark} {start : Time}
    (idle : store.ongoingOf quark = none)
    (after : ∀ last, (store.intervalsOf quark).getLast? = some last → last.stop < start) :
    store.openFault quark start = none := by
  simp only [Store.openFault, idle, store.committedEnd_eq]
  cases found : (store.intervalsOf quark).getLast? with
  | none => rfl
  | some last => simpa using after last found

theorem Store.closeFault_eq_none {store : Store} {quark : Quark} {start stop : Time}
    (ordered : start ≤ stop)
    (after : ∀ last, (store.intervalsOf quark).getLast? = some last → last.stop < start) :
    store.closeFault quark start stop = none := by
  rw [Store.closeFault, if_neg (Nat.not_lt.mpr ordered), store.committedEnd_eq]
  cases found : (store.intervalsOf quark).getLast? with
  | none => rfl
  | some last =>
      have before := after last found
      simp only [Option.map_some]
      rw [if_neg (by lia)]

/-- A current quark is recorded without a fault, so closing and opening again never stop midway. -/
theorem Store.record_done {store : Store} {quark : Quark} {time : Time} (level : store.Level)
    (current : store.Current quark time) (value : Value) :
    store.record quark time value = .done () (store.recorded quark time value) := by
  unfold Store.record Store.recorded
  cases held : store.ongoingOf quark with
  | none => exact store.open_done (store.openFault_eq_none held (current.idle held)) value
  | some ongoing =>
      have started := current.started ongoing held
      have inside := level.inside held
      by_cases same : ongoing.start = time
      · simp only [same, if_true, store.amend_done held, Attempt.andThen_done]
      · simp only [same, if_false]
        have ordered : ongoing.start ≤ time - 1 := by lia
        rw [store.close_done held (store.closeFault_eq_none ordered (current.committed ongoing held)),
          Attempt.andThen_done]
        apply Store.open_done
        apply Store.openFault_eq_none
        · rw [Store.ongoingOf_shut]
          simp [Ongoing.close]
        · intro last final
          rw [Store.intervalsOf_shut inside] at final
          simp only [Ongoing.close, if_true, List.getLast?_append, List.getLast?_singleton,
            Option.some_or, Option.some.injEq] at final
          rw [← final]
          simp only
          lia

section Recorded

variable {store : Store} {quark : Quark} {time : Time} {value : Value}

theorem Store.level_recorded (level : store.Level) : (store.recorded quark time value).Level := by
  unfold Store.recorded
  split
  · exact store.level_opened level
  · split
    · exact store.level_amended level
    · exact Store.level_opened (store.level_shut level)

/-- The recorded quark is ongoing from the time on, and no other quark changes its state. -/
theorem Store.ongoingOf_recorded (level : store.Level) (other : Quark) :
    (store.recorded quark time value).ongoingOf other =
      if other = quark then some ⟨time, value⟩ else store.ongoingOf other := by
  unfold Store.recorded
  split
  · exact store.ongoingOf_opened level other
  · rename_i ongoing held
    split
    · rename_i same
      rw [store.ongoingOf_amended (store.ongoingOf_lt held), ← same]
    · rw [Store.ongoingOf_opened (store.level_shut level), Store.ongoingOf_shut]
      by_cases equal : other = quark <;> simp [equal, Ongoing.close]

/-- The interval that is cut off comes last, and no other quark gets an interval. -/
theorem Store.intervalsOf_recorded (level : store.Level) (other : Quark) :
    (store.recorded quark time value).intervalsOf other =
      if other = quark then store.intervalsOf quark ++ (store.cut quark time).toList
      else store.intervalsOf other := by
  unfold Store.recorded Store.cut
  cases held : store.ongoingOf quark with
  | none =>
      rw [Store.intervalsOf_opened]
      by_cases equal : other = quark <;> simp [equal]
  | some ongoing =>
      have inside := level.inside held
      by_cases same : ongoing.start = time
      · by_cases equal : other = quark <;> simp [same, equal]
      · simp only [same, if_false]
        rw [Store.intervalsOf_opened, Store.intervalsOf_shut inside]
        by_cases equal : other = quark <;> simp [equal, Ongoing.close]

theorem Store.closedCount_recorded :
    (store.recorded quark time value).closedCount =
      store.closedCount + (store.cut quark time).toList.length := by
  unfold Store.recorded Store.cut
  cases held : store.ongoingOf quark with
  | none => exact store.closedCount_opened
  | some ongoing =>
      by_cases same : ongoing.start = time
      · simp [same, Store.amended]
      · simp [same, Store.closedCount_opened, Store.shut]

theorem Store.length_allIntervals_recorded (level : store.Level) :
    (store.recorded quark time value).allIntervals.length =
      store.allIntervals.length + (store.cut quark time).toList.length := by
  unfold Store.recorded Store.cut
  cases held : store.ongoingOf quark with
  | none => simp [Store.allIntervals_opened]
  | some ongoing =>
      by_cases same : ongoing.start = time
      · simp [same]
      · have inside : (ongoing.close quark (time - 1)).quark < store.closed.size :=
          level.inside held
        simp [same, Store.allIntervals_opened, store.length_allIntervals_shut inside]

end Recorded

end Chronicle
