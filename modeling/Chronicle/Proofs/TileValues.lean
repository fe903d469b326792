import Chronicle.Proofs.Bisection
import Chronicle.Proofs.Tiling

/-!
Reading values off the tiles of a quark: its timeline, closed at any later time, gives the same
values as the store.
-/

namespace Chronicle

variable {quark : Quark} {row : List Interval}

/-- Tiles ascend. -/
theorem Tiling.ascends {ongoing : Option Ongoing} (tiling : Tiling quark row ongoing) :
    Ascends row := by
  have ordered := tiling.ordered
  have contiguous := tiling.contiguous
  clear tiling
  refine ⟨ordered, ?_⟩
  induction row with
  | nil => exact List.Pairwise.nil
  | cons interval rest ih =>
      have later := ih (fun other member => ordered other (List.mem_cons_of_mem _ member))
        contiguous.tail
      refine List.pairwise_cons.mpr ⟨fun other member => ?_, later⟩
      cases rest with
      | nil => cases member
      | cons next others =>
          have gap : next.start = interval.stop + 1 := contiguous.rel
          rcases List.mem_cons.mp member with rfl | member
          · lia
          · have beyond := (List.pairwise_cons.mp later).1 other member
            have order := ordered next (List.mem_cons_of_mem _ List.mem_cons_self)
            lia

/-- All tiles lie before the ongoing interval. -/
theorem Tiling.stop_lt {ongoing : Ongoing} (tiling : Tiling quark row (some ongoing)) :
    ∀ interval ∈ row, interval.stop < ongoing.start := by
  have whole := (tiling.cut (Nat.le_refl ongoing.start) ongoing.value).ascends.apart
  intro interval member
  exact (List.pairwise_append.mp whole).2.2 interval member _ (List.mem_singleton_self _)

theorem scanned_of_stop_lt {time : Time} (before : ∀ interval ∈ row, interval.stop < time) :
    scanned row time = .null := by
  have missing : row.find? (fun interval => interval.contains time) = none := by
    apply List.find?_eq_none.mpr
    intro interval member
    have passed := before interval member
    simp [Interval.contains]
    lia
  rw [scanned, missing]
  rfl

/-- A tile that covers the time is read when no earlier one covers it. -/
theorem scanned_append_singleton {time : Time} (interval : Interval)
    (before : interval.start ≤ time → ∀ earlier ∈ row, earlier.stop < time) :
    scanned (row ++ [interval]) time =
      if interval.contains time then interval.value else scanned row time := by
  by_cases covers : interval.contains time = true
  · have started : interval.start ≤ time := by
      simp [Interval.contains] at covers
      exact covers.1
    have missing : row.find? (fun interval => interval.contains time) = none := by
      apply List.find?_eq_none.mpr
      intro earlier member
      have passed := before started earlier member
      simp [Interval.contains]
      lia
    simp [scanned, List.find?_append, missing, covers]
  · simp [scanned, List.find?_append, covers]

/-- Ending the ongoing interval changes no value up to its end. -/
theorem Store.valueAt_timeline {store : Store}
    (tiling : Tiling quark (store.intervalsOf quark) (store.ongoingOf quark)) {time stop : Time}
    (within : time ≤ stop) :
    store.valueAt quark time = scanned (store.timeline quark stop) time := by
  rw [store.valueAt_eq tiling.ascends, Store.timeline]
  cases held : store.ongoingOf quark with
  | none => simp
  | some ongoing =>
      rw [held] at tiling
      have before := tiling.stop_lt
      simp only [Option.map_some, Option.toList_some]
      rw [scanned_append_singleton]
      · by_cases started : ongoing.start ≤ time <;>
          simp [Interval.contains, Ongoing.close, started, within]
      · intro started earlier member
        exact lt_of_lt_of_le (before earlier member) started

/-- Two stores that agree on a quark give it the same values. -/
theorem Store.valueAt_congr {store next : Store}
    (intervals : next.intervalsOf quark = store.intervalsOf quark)
    (ongoing : next.ongoingOf quark = store.ongoingOf quark) (time : Time) :
    next.valueAt quark time = store.valueAt quark time := by
  have row : next.row quark = store.row quark := Array.toList_inj.mp intervals
  simp only [Store.valueAt, Store.intervalAt, Store.boundaryOf, row, ongoing]

end Chronicle
