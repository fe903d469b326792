import Chronicle.Proofs.Bisection
import Chronicle.Proofs.StoreTables
import Mathlib.Data.List.Induction

/-!
Calls on a store with no history around it. In whatever order it is called and with whatever arguments,
the closed intervals of every quark ascend, with or without gaps between them, and its ongoing interval
starts behind them all.
-/

namespace Chronicle

/-- A call opens, closes or amends an interval. -/
inductive StoreCall where
  | open (quark : Quark) (start : Time) (value : Value)
  | close (quark : Quark) (stop : Time) (value : Value)
  | amend (quark : Quark) (value : Value)

/-- What a call leaves of a store, whether it is refused or not. -/
def Store.call (store : Store) : StoreCall → Store
  | .open quark start value => (store.open quark start value).state
  | .close quark stop value => (store.close quark stop value).state
  | .amend quark value => (store.amend quark value).state

/-- What a list of calls leaves of a store, of which some may be refused. -/
def Store.callAll (store : Store) (calls : List StoreCall) : Store := calls.foldl Store.call store

/-- Spaced intervals of a quark ascend, maybe with gaps, and the ongoing one starts behind them. -/
structure Spaced (quark : Quark) (row : List Interval) (ongoing : Option Ongoing) : Prop where
  owned : ∀ interval ∈ row, interval.quark = quark
  ascends : Ascends row
  behind : ∀ current, ongoing = some current → ∀ interval ∈ row, interval.stop < current.start

/-- A sorted store has spaced intervals for every quark, and counts the closed ones. -/
structure Store.Sorted (store : Store) : Prop where
  spaced : ∀ quark, Spaced quark (store.intervalsOf quark) (store.ongoingOf quark)
  level : store.Level
  counted : store.closedCount = store.allIntervals.length

section Spaced

variable {quark : Quark} {row : List Interval} {ongoing : Ongoing}

/-- What lies behind the last of some ascending intervals lies behind all of them. -/
theorem Ascends.stop_lt {time : Time} (ascends : Ascends row)
    (after : ∀ last, row.getLast? = some last → last.stop < time) :
    ∀ interval ∈ row, interval.stop < time := by
  induction row using List.reverseRecOn with
  | nil =>
      intro interval member
      cases member
  | append_singleton former last _ =>
      have final : last.stop < time := after last (by simp)
      have apart := (List.pairwise_append.mp ascends.apart).2.2
      intro interval member
      rcases List.mem_append.mp member with earlier | same
      · have before : interval.stop < last.start :=
          apart interval earlier last (List.mem_singleton_self last)
        have ordered := ascends.ordered last (by simp)
        lia
      · rw [List.mem_singleton.mp same]
        exact final

theorem Spaced.empty (quark : Quark) : Spaced quark [] none where
  owned := by simp
  ascends := ⟨by simp, List.Pairwise.nil⟩
  behind := by simp

/-- An interval may open behind the last closed one. -/
theorem Spaced.begin (spaced : Spaced quark row none) {start : Time}
    (after : ∀ last, row.getLast? = some last → last.stop < start) (value : Value) :
    Spaced quark row (some ⟨start, value⟩) where
  owned := spaced.owned
  ascends := spaced.ascends
  behind := by
    intro current held interval member
    rw [← Option.some.inj held]
    exact spaced.ascends.stop_lt after interval member

/-- The ongoing interval may close at any time that is not before its start. -/
theorem Spaced.shut (spaced : Spaced quark row (some ongoing)) {stop : Time}
    (ordered : ongoing.start ≤ stop) (value : Value) :
    Spaced quark (row ++ [⟨quark, ongoing.start, stop, value⟩]) none where
  owned := by
    intro interval member
    rcases List.mem_append.mp member with old | new
    · exact spaced.owned interval old
    · rw [List.mem_singleton.mp new]
  ascends := by
    constructor
    · intro interval member
      rcases List.mem_append.mp member with old | new
      · exact spaced.ascends.ordered interval old
      · rw [List.mem_singleton.mp new]
        exact ordered
    · apply List.pairwise_append.mpr ⟨spaced.ascends.apart, List.pairwise_singleton _ _, ?_⟩
      intro interval old last new
      rw [List.mem_singleton.mp new]
      exact spaced.behind ongoing rfl interval old
  behind := by simp

/-- The value of the ongoing interval does not matter. -/
theorem Spaced.amend (spaced : Spaced quark row (some ongoing)) (value : Value) :
    Spaced quark row (some { ongoing with value := value }) where
  owned := spaced.owned
  ascends := spaced.ascends
  behind := by
    intro current held interval member
    rw [← Option.some.inj held]
    exact spaced.behind ongoing rfl interval member

end Spaced

/-- A call changes nothing, or one quark that admits the change. -/
inductive Store.Turns (store : Store) : Store → Prop where
  | refused : Turns store store
  | opened {quark : Quark} {start : Time} (value : Value) (idle : store.ongoingOf quark = none)
      (after : ∀ last, (store.intervalsOf quark).getLast? = some last → last.stop < start) :
      Turns store (store.opened quark start value)
  | shut {quark : Quark} {ongoing : Ongoing} {stop : Time} (value : Value)
      (held : store.ongoingOf quark = some ongoing) (ordered : ongoing.start ≤ stop) :
      Turns store (store.shut ⟨quark, ongoing.start, stop, value⟩)
  | amended {quark : Quark} {ongoing : Ongoing} (value : Value)
      (held : store.ongoingOf quark = some ongoing) :
      Turns store (store.amended quark { ongoing with value := value })

section Calls

variable {store next : Store}

/-- Where opening is granted, nothing is ongoing and all that is closed lies before the start. -/
theorem Store.openFault_granted {quark : Quark} {start : Time}
    (granted : store.openFault quark start = none) :
    store.ongoingOf quark = none ∧
      ∀ last, (store.intervalsOf quark).getLast? = some last → last.stop < start := by
  unfold Store.openFault at granted
  cases held : store.ongoingOf quark with
  | some ongoing => simp [held] at granted
  | none =>
      refine ⟨rfl, fun last final => ?_⟩
      simp only [held, Store.committedEnd_eq, final, Option.map_some] at granted
      by_contra overlap
      rw [if_pos (Nat.le_of_not_lt overlap)] at granted
      cases granted

/-- Where closing is granted, the interval does not end before its start. -/
theorem Store.closeFault_granted {quark : Quark} {start stop : Time}
    (granted : store.closeFault quark start stop = none) : start ≤ stop := by
  unfold Store.closeFault at granted
  by_contra reversed
  rw [if_pos (Nat.lt_of_not_le reversed)] at granted
  cases granted

/-- Every call, with any arguments, is refused or makes one of the three changes. -/
theorem Store.call_turns (store : Store) (call : StoreCall) : store.Turns (store.call call) := by
  cases call with
  | «open» quark start value =>
      rw [Store.call]
      cases fault : store.openFault quark start with
      | some error =>
          simp only [Store.open, fault, Attempt.state_fail]
          exact .refused
      | none =>
          obtain ⟨idle, after⟩ := Store.openFault_granted fault
          rw [Store.open_done fault]
          exact .opened value idle after
  | close quark stop value =>
      rw [Store.call, Store.close]
      cases held : store.ongoingOf quark with
      | none => exact .refused
      | some ongoing =>
          simp only
          cases fault : store.closeFault quark ongoing.start stop with
          | some error => exact .refused
          | none => exact .shut value held (Store.closeFault_granted fault)
  | amend quark value =>
      rw [Store.call]
      cases held : store.ongoingOf quark with
      | none =>
          rw [Store.amend_fail held]
          exact .refused
      | some ongoing =>
          rw [Store.amend_done held]
          exact .amended value held

theorem Store.sorted_empty : Store.empty.Sorted where
  spaced := Spaced.empty
  level := rfl
  counted := rfl

/-- One call keeps a store sorted. -/
theorem Store.Sorted.turn (sorted : store.Sorted) (turns : store.Turns next) : next.Sorted := by
  have level := sorted.level
  have counted := sorted.counted
  cases turns with
  | refused => exact sorted
  | @opened quark start value idle after =>
      have own := sorted.spaced quark
      rw [idle] at own
      constructor
      case spaced =>
        intro other
        rw [Store.intervalsOf_opened, Store.ongoingOf_opened level]
        by_cases same : other = quark
        · rw [if_pos same, same]
          exact own.begin after value
        · rw [if_neg same]
          exact sorted.spaced other
      case level => exact Store.level_opened level
      case counted => rw [Store.closedCount_opened, Store.allIntervals_opened, counted]
  | @shut quark ongoing stop value held ordered =>
      have own := sorted.spaced quark
      rw [held] at own
      have inside : quark < store.closed.size := level.inside held
      constructor
      case spaced =>
        intro other
        rw [Store.intervalsOf_shut inside, Store.ongoingOf_shut]
        by_cases same : other = quark
        · rw [if_pos same, if_pos same, same]
          exact own.shut ordered value
        · rw [if_neg same, if_neg same]
          exact sorted.spaced other
      case level => exact Store.level_shut level
      case counted =>
        rw [Store.length_allIntervals_shut inside, ← counted]
        rfl
  | @amended quark ongoing value held =>
      have own := sorted.spaced quark
      rw [held] at own
      constructor
      case spaced =>
        intro other
        rw [Store.intervalsOf_amended, Store.ongoingOf_amended (Store.ongoingOf_lt held)]
        by_cases same : other = quark
        · rw [if_pos same, same]
          exact own.amend value
        · rw [if_neg same]
          exact sorted.spaced other
      case level => exact Store.level_amended level
      case counted => exact counted

/-- Whatever is called on a sorted store, it stays sorted. -/
theorem Store.Sorted.callAll (sorted : store.Sorted) (calls : List StoreCall) :
    (store.callAll calls).Sorted := by
  induction calls generalizing store with
  | nil => exact sorted
  | cons call rest ih => exact ih (sorted.turn (store.call_turns call))

end Calls

end Chronicle
