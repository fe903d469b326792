import Chronicle.Proofs.StoreCalls
import Chronicle.Proofs.StoreWrites

/-!
What a store refuses. A call fails for its own reason only and leaves the store as it was. A new interval
must start after all that is committed, which keeps every row sorted, so an ongoing interval that does
not end before its start never ends within what is committed.
-/

namespace Chronicle

variable {store : Store} {quark : Quark}

/-- A store refuses a call when the attempt fails. -/
def Store.Refuses (store : Store) : StoreCall → Prop
  | .open quark start value => ∃ error, (store.open quark start value).result = .error error
  | .close quark stop value => ∃ error, (store.close quark stop value).result = .error error
  | .amend quark value => ∃ error, (store.amend quark value).result = .error error

/-- Opening is refused where an interval is ongoing, and up to the end of what is committed. -/
theorem Store.refuses_open_iff (start : Time) (value : Value) :
    store.Refuses (.open quark start value) ↔
      (∃ ongoing, store.ongoingOf quark = some ongoing) ∨
        ∃ stop, store.committedEnd quark = some stop ∧ start ≤ stop := by
  rw [Store.Refuses, Store.open, Store.openFault]
  cases held : store.ongoingOf quark with
  | some ongoing => simp
  | none =>
      cases committed : store.committedEnd quark with
      | none => simp
      | some stop => by_cases overlap : start ≤ stop <;> simp [overlap]

/-- Amending is refused where nothing is ongoing. -/
theorem Store.refuses_amend_iff (value : Value) :
    store.Refuses (.amend quark value) ↔ store.ongoingOf quark = none := by
  rw [Store.Refuses, Store.amend]
  cases store.ongoingOf quark <;> simp

/-- The ongoing interval of a quark starts behind all that is committed. -/
theorem Store.Sorted.committed_lt (sorted : store.Sorted) {ongoing : Ongoing} {stop : Time}
    (held : store.ongoingOf quark = some ongoing) (committed : store.committedEnd quark = some stop) :
    stop < ongoing.start := by
  rw [Store.committedEnd_eq, Option.map_eq_some_iff] at committed
  obtain ⟨last, final, rfl⟩ := committed
  exact (sorted.spaced quark).behind ongoing held last (List.mem_of_getLast? final)

/-- Closing is refused before the start of the ongoing interval, and never for what is committed. -/
theorem Store.Sorted.closeFault_eq_none_iff (sorted : store.Sorted) {ongoing : Ongoing}
    (held : store.ongoingOf quark = some ongoing) (stop : Time) :
    store.closeFault quark ongoing.start stop = none ↔ ongoing.start ≤ stop := by
  constructor
  · exact Store.closeFault_granted
  · intro ordered
    apply Store.closeFault_eq_none ordered
    intro last final
    exact (sorted.spaced quark).behind ongoing held last (List.mem_of_getLast? final)

theorem Store.Sorted.refuses_close_iff (sorted : store.Sorted) (stop : Time) (value : Value) :
    store.Refuses (.close quark stop value) ↔
      store.ongoingOf quark = none ∨
        ∃ ongoing, store.ongoingOf quark = some ongoing ∧ stop < ongoing.start := by
  rw [Store.Refuses, Store.close]
  cases held : store.ongoingOf quark with
  | none => simp
  | some ongoing =>
      have granted := sorted.closeFault_eq_none_iff held stop
      cases fault : store.closeFault quark ongoing.start stop with
      | none =>
          have ordered := granted.mp fault
          simp [fault, Nat.not_lt.mpr ordered]
      | some error =>
          have reversed : stop < ongoing.start := by
            by_contra ordered
            rw [granted.mpr (Nat.not_lt.mp ordered)] at fault
            cases fault
          simp [fault, reversed]

/-- A call that is refused changes nothing. -/
theorem Store.call_of_refuses {call : StoreCall} (refused : store.Refuses call) :
    store.call call = store := by
  cases call with
  | «open» quark start value =>
      obtain ⟨error, failed⟩ := refused
      rw [Store.call]
      cases fault : store.openFault quark start with
      | some reason => simp only [Store.open, fault, Attempt.state_fail]
      | none =>
          rw [Store.open_done fault] at failed
          cases failed
  | close quark stop value =>
      obtain ⟨error, failed⟩ := refused
      rw [Store.call]
      rw [Store.close] at failed ⊢
      cases held : store.ongoingOf quark with
      | none => rfl
      | some ongoing =>
          simp only [held] at failed ⊢
          cases fault : store.closeFault quark ongoing.start stop with
          | some reason => rfl
          | none =>
              simp only [fault] at failed
              cases failed
  | amend quark value =>
      have idle := (Store.refuses_amend_iff value).mp refused
      rw [Store.call, Store.amend_fail idle, Attempt.state_fail]

/-- Whatever is called on an empty store: the closed intervals of every quark carry it, end no earlier than
they start and start behind those before them, the ongoing interval starts behind what is committed, and
all closed intervals are counted. Opening is refused exactly where an interval is ongoing or up to the
committed end, closing exactly where nothing is ongoing or before the start, and amending exactly where
nothing is ongoing. A call that is refused leaves the whole store as it was. -/
theorem Store.exact_refusals (calls : List StoreCall) :
    let store := Store.empty.callAll calls
    (∀ quark,
      (∀ interval ∈ store.intervalsOf quark,
        interval.start ≤ interval.stop ∧ interval.quark = quark) ∧
      ((store.intervalsOf quark).Pairwise fun earlier later => earlier.stop < later.start) ∧
      ∀ ongoing stop, store.ongoingOf quark = some ongoing →
        store.committedEnd quark = some stop → stop < ongoing.start) ∧
    store.closedCount = store.allIntervals.length ∧
    (∀ quark start value, store.Refuses (.open quark start value) ↔
      (∃ ongoing, store.ongoingOf quark = some ongoing) ∨
        ∃ stop, store.committedEnd quark = some stop ∧ start ≤ stop) ∧
    (∀ quark stop value, store.Refuses (.close quark stop value) ↔
      store.ongoingOf quark = none ∨
        ∃ ongoing, store.ongoingOf quark = some ongoing ∧ stop < ongoing.start) ∧
    (∀ quark value, store.Refuses (.amend quark value) ↔ store.ongoingOf quark = none) ∧
    ∀ call, store.Refuses call → store.call call = store := by
  intro store
  have sorted : store.Sorted := Store.sorted_empty.callAll calls
  refine ⟨fun quark => ?_, sorted.counted, fun quark => Store.refuses_open_iff,
    fun quark => sorted.refuses_close_iff, fun quark => Store.refuses_amend_iff,
    fun call => Store.call_of_refuses⟩
  have spaced := sorted.spaced quark
  refine ⟨fun interval member => ⟨spaced.ascends.ordered interval member,
    spaced.owned interval member⟩, spaced.ascends.apart, fun ongoing stop held committed => ?_⟩
  exact sorted.committed_lt held committed

end Chronicle
