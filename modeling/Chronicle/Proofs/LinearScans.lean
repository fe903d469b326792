import Chronicle.Proofs.StoreCalls

/-!
Linear scans as the meaning of the searches in a store. The search for a time finds the one closed
interval that a scan finds, and the bounds of a window cut out of a row what a scan would keep of it.
-/

namespace Chronicle

theorem Interval.contains_iff {interval : Interval} {time : Time} :
    interval.contains time = true ↔ interval.start ≤ time ∧ time ≤ interval.stop := by
  simp [Interval.contains]

theorem Interval.intersects_iff {interval : Interval} {first last : Time} :
    interval.intersects first last = true ↔ interval.start ≤ last ∧ first ≤ interval.stop := by
  simp [Interval.intersects]

/-- The intervals of a list that cover a time. -/
def covering (intervals : List Interval) (time : Time) : List Interval :=
  intervals.filter fun interval => interval.contains time

/-- A list of intervals answers a time with the value of the only interval that covers it, or with no
value where none covers it. -/
inductive Answers (intervals : List Interval) (time : Time) : Value → Prop where
  | covered {interval : Interval} (only : covering intervals time = [interval]) :
      Answers intervals time interval.value
  | uncovered (nowhere : covering intervals time = []) : Answers intervals time .null

section Rows

variable {row : List Interval}

/-- A test that holds on a first part of a list keeps this part. -/
theorem takeWhile_eq_filter {A : Type} {test : A → Bool} {items : List A}
    (falls : items.Pairwise fun earlier later => test later = true → test earlier = true) :
    items.takeWhile test = items.filter test := by
  induction items with
  | nil => rfl
  | cons item rest ih =>
      obtain ⟨first, others⟩ := List.pairwise_cons.mp falls
      by_cases holds : test item = true
      · rw [List.takeWhile_cons_of_pos holds, List.filter_cons_of_pos holds, ih others]
      · have fails : ∀ later ∈ rest, ¬test later = true := fun later member passes =>
          holds (first later member passes)
        rw [List.takeWhile_cons_of_neg holds, List.filter_cons_of_neg holds,
          List.filter_eq_nil_iff.mpr fails]

/-- Intervals that end before a time do not cover it. -/
theorem covering_of_stop_lt {time : Time} (before : ∀ interval ∈ row, interval.stop < time) :
    covering row time = [] := by
  apply List.filter_eq_nil_iff.mpr
  intro interval member
  have passed := before interval member
  rw [Interval.contains_iff]
  lia

/-- Among ascending intervals at most one covers a time. -/
theorem Ascends.covering_eq (ascends : Ascends row) (time : Time) :
    covering row time = (row.find? fun interval => interval.contains time).toList := by
  induction row with
  | nil => rfl
  | cons interval rest ih =>
      have before := (List.pairwise_cons.mp ascends.apart).1
      by_cases covers : interval.contains time = true
      · have late : ∀ other ∈ rest, ¬other.contains time = true := by
          intro other member holds
          have gap := before other member
          rw [Interval.contains_iff] at covers holds
          lia
        rw [covering, List.filter_cons_of_pos (by simpa using covers),
          List.filter_eq_nil_iff.mpr late, List.find?_cons_of_pos (by simpa using covers),
          Option.toList_some]
      · rw [covering, List.filter_cons_of_neg (by simpa using covers),
          List.find?_cons_of_neg (by simpa using covers)]
        exact ih ascends.tail

/-- Ascending intervals answer every time, as a scan of them does. -/
theorem Ascends.answers (ascends : Ascends row) (time : Time) :
    Answers row time (scanned row time) := by
  have found := ascends.covering_eq time
  unfold scanned
  cases covers : row.find? fun interval => interval.contains time with
  | none =>
      rw [covers] at found
      exact .uncovered found
  | some interval =>
      rw [covers] at found
      exact .covered found

/-- Between the two boundaries of a window lie the ascending intervals that share a time with it, also
when the window ends before it starts. -/
theorem Ascends.slice_eq (ascends : Ascends row) (first last : Time) :
    let lower := (row.takeWhile fun interval => decide (interval.stop < first)).length
    let upper := (row.takeWhile fun interval => decide (interval.start ≤ last)).length
    (row.take (max upper lower)).drop lower =
      row.filter fun interval => interval.intersects first last := by
  induction row with
  | nil => rfl
  | cons interval rest ih =>
      have before := (List.pairwise_cons.mp ascends.apart).1
      dsimp only
      by_cases passed : interval.stop < first
      · have misses : ¬interval.intersects first last = true := by
          rw [Interval.intersects_iff]
          lia
        rw [List.takeWhile_cons_of_pos (by simpa using passed), List.length_cons,
          List.filter_cons_of_neg (by simpa using misses)]
        by_cases started : interval.start ≤ last
        · rw [List.takeWhile_cons_of_pos (by simpa using started), List.length_cons,
            Nat.add_max_add_right, List.take_succ_cons, List.drop_succ_cons]
          exact ih ascends.tail
        · -- The window ends before the interval starts, so that all later ones miss it too.
          have ordered := ascends.ordered interval List.mem_cons_self
          have later : ∀ other ∈ rest, ¬other.intersects first last = true := by
            intro other member
            have gap := before other member
            rw [Interval.intersects_iff]
            lia
          rw [List.takeWhile_cons_of_neg (by simpa using started), List.length_nil,
            Nat.zero_max, List.drop_take_self, List.filter_eq_nil_iff.mpr later]
      · -- No interval lies before the window, so the first part of the row is all of the slice.
        have reached : ∀ other ∈ interval :: rest,
            decide (other.start ≤ last) = other.intersects first last := by
          intro other member
          have stop : first ≤ other.stop := by
            rcases List.mem_cons.mp member with same | behind
            · rw [same]
              exact Nat.le_of_not_lt passed
            · have gap := before other behind
              have ordered := ascends.tail.ordered other behind
              lia
          simp [Interval.intersects, stop]
        rw [List.takeWhile_cons_of_neg (by simpa using passed), List.length_nil, Nat.max_zero,
          List.drop_zero, ← List.prefix_iff_eq_take.mp (List.takeWhile_prefix _),
          takeWhile_eq_filter (ascends.starts last)]
        exact List.filter_congr reached

end Rows

/-- Between the bounds of a window lies the part of the row that shares a time with it. -/
theorem Store.slice_windowBounds {store : Store} {quark : Quark}
    (ascends : Ascends (store.intervalsOf quark)) (first last : Time) :
    let bounds := store.windowBounds quark first last
    ((store.intervalsOf quark).take bounds.2).drop bounds.1 =
      (store.intervalsOf quark).filter fun interval => interval.intersects first last := by
  rw [Store.windowBounds, Store.boundaryOf_eq (ascends.stops first),
    Store.boundaryOf_eq (ascends.starts last)]
  exact ascends.slice_eq first last

/-- Whatever was called on a store, its searches agree with linear scans. The interval at a time is the
only closed interval of the quark that covers it. The value at a time is that of the ongoing interval
from its start on, where no closed interval covers the time, and elsewhere that of the only
closed interval that covers it. The bounds of a window cut out of the row exactly the closed
intervals that share a time with the window, whether it is reversed or not. -/
theorem Store.searches_eq_scans (calls : List StoreCall) (quark : Quark) :
    let store := Store.empty.callAll calls
    let row := store.intervalsOf quark
    (∀ time, covering row time = (store.intervalAt quark time).toList) ∧
    (∀ time,
      match (store.ongoingOf quark).filter fun ongoing => ongoing.start ≤ time with
      | some ongoing => store.valueAt quark time = ongoing.value ∧ covering row time = []
      | none => Answers row time (store.valueAt quark time)) ∧
    ∀ first last,
      let bounds := store.windowBounds quark first last
      bounds.1 ≤ bounds.2 ∧ bounds.2 ≤ row.length ∧
        (row.take bounds.2).drop bounds.1 =
          row.filter fun interval => interval.intersects first last := by
  intro store row
  have spaced : Spaced quark row (store.ongoingOf quark) :=
    (Store.sorted_empty.callAll calls).spaced quark
  have ascends : Ascends (store.intervalsOf quark) := spaced.ascends
  refine ⟨?_, ?_, ?_⟩
  · intro time
    rw [Store.intervalAt_eq ascends]
    exact ascends.covering_eq time
  · intro time
    rw [Store.valueAt_eq ascends]
    cases held : store.ongoingOf quark with
    | none => exact ascends.answers time
    | some ongoing =>
        by_cases started : ongoing.start ≤ time
        · have passed : ∀ interval ∈ row, interval.stop < time := fun interval member =>
            lt_of_lt_of_le (spaced.behind ongoing held interval member) started
          rw [Option.filter_some_pos (by simpa using started)]
          exact ⟨if_pos started, covering_of_stop_lt passed⟩
        · rw [Option.filter_some_neg (by simpa using started)]
          simp only [if_neg started]
          exact ascends.answers time
  · intro first last
    exact ⟨le_max_right _ _, Store.windowBounds_le ascends first last,
      Store.slice_windowBounds ascends first last⟩

/-- Between the two intervals that are closed lies a gap, and the ongoing one starts after another. A
start within what is closed and an end before the start are refused. -/
def gappedCalls : List StoreCall :=
  [.open 1 2 .null, .close 1 4 (.int 7), .open 1 3 .null, .open 1 9 .null, .close 1 6 .null,
    .close 1 12 (.int 8), .open 1 20 (.text "now")]

/-- In the gap nothing is found. At 25 the ongoing value holds. The reversed window from 11 to 10 cuts
out the interval that covers both of its ends. -/
theorem Store.searches_of_gaps :
    let store := Store.empty.callAll gappedCalls
    let bounds := store.windowBounds 1 11 10
    store.intervalAt 1 6 = none ∧ store.valueAt 1 25 = .text "now" ∧
      ((store.intervalsOf 1).take bounds.2).drop bounds.1 = [⟨1, 9, 12, .int 8⟩] := by
  intro store bounds
  obtain ⟨found, values, slices⟩ := Store.searches_eq_scans gappedCalls 1
  have gap : covering (store.intervalsOf 1) 6 = [] := by decide
  have held : (store.ongoingOf 1).filter (fun ongoing => ongoing.start ≤ 25) =
      some ⟨20, .text "now"⟩ := by decide
  have kept : (store.intervalsOf 1).filter (fun interval => interval.intersects 11 10) =
      [⟨1, 9, 12, .int 8⟩] := by decide
  have value := values 25
  rw [held] at value
  exact ⟨Option.toList_eq_nil_iff.mp ((found 6).symm.trans gap), value.1,
    (slices 11 10).2.2.trans kept⟩

end Chronicle
