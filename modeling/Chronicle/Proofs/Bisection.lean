import Chronicle.Store.Search
import Mathlib.Data.List.TakeWhile

/-!
Bisection agrees with a scan: over a test that holds on a first part of the positions it finds where
this part ends, and over ascending intervals it finds the one that covers a time.
-/

namespace Chronicle

/-- A falling test holds on a first part of the positions below the limit and nowhere else. -/
def Falls (test : Nat → Bool) (limit : Nat) : Prop :=
  ∀ low high, low ≤ high → high < limit → test high = true → test low = true

/-- Bisection stays within its block, and finds the last position in it at which the test holds, or
the start of the block. -/
theorem bisect_block {test : Nat → Bool} {limit : Nat} (falls : Falls test limit)
    (steps base size : Nat) (enough : size ≤ steps) (positive : 0 < size)
    (within : base + size ≤ limit)
    (above : ∀ position, base + size ≤ position → position < limit → test position = false) :
    base ≤ bisect test steps base size ∧ bisect test steps base size < base + size ∧
      (base < bisect test steps base size → test (bisect test steps base size) = true) ∧
      ∀ position, bisect test steps base size < position → position < limit →
        test position = false := by
  induction steps generalizing base size with
  | zero => omega
  | succ steps ih =>
      rw [bisect]
      by_cases single : size ≤ 1
      · rw [if_pos single]
        refine ⟨Nat.le_refl _, by omega, by omega, fun position low high => ?_⟩
        exact above position (by omega) high
      · rw [if_neg single]
        simp only
        by_cases holds : test (base + size / 2) = true
        · rw [if_pos holds]
          obtain ⟨lower, upper, last, rest⟩ := ih (base + size / 2) (size - size / 2) (by omega)
            (by omega) (by omega) (fun position low => above position (by omega))
          refine ⟨by omega, by omega, fun _ => ?_, rest⟩
          rcases Nat.eq_or_lt_of_le lower with same | later
          · rw [← same]
            exact holds
          · exact last later
        · rw [if_neg holds]
          -- what lies at or above the tested position fails, since the test falls
          have fails : ∀ position, base + (size - size / 2) ≤ position → position < limit →
              test position = false := by
            intro position low high
            by_contra passes
            exact holds (falls _ position (by omega) high (by simpa using passes))
          obtain ⟨lower, upper, last, rest⟩ := ih base (size - size / 2) (by omega) (by omega)
            (by omega) fails
          exact ⟨lower, by omega, last, rest⟩

/-- The boundary of a falling test separates where it holds from where it does not. -/
theorem boundary_iff {test : Nat → Bool} {size : Nat} (falls : Falls test size) :
    boundary test size ≤ size ∧
      ∀ position, position < size → (test position = true ↔ position < boundary test size) := by
  unfold boundary
  by_cases empty : size = 0
  · rw [if_pos empty]
    exact ⟨Nat.zero_le _, fun position inside => by omega⟩
  · rw [if_neg empty]
    obtain ⟨_, upper, last, rest⟩ := bisect_block falls size 0 size (Nat.le_refl _)
      (Nat.pos_of_ne_zero empty) (by omega) (fun position low high => by omega)
    simp only
    by_cases holds : test (bisect test size 0 size) = true
    · rw [if_pos holds]
      refine ⟨by omega, fun position inside => ⟨fun passes => ?_, fun low => ?_⟩⟩
      · by_contra high
        rw [rest position (by omega) inside] at passes
        cases passes
      · exact falls position _ (by omega) (by omega) holds
    · rw [if_neg holds]
      have start : bisect test size 0 size = 0 := by
        by_contra later
        exact holds (last (Nat.pos_of_ne_zero later))
      rw [start] at holds ⊢
      refine ⟨Nat.zero_le _, fun position inside => ⟨fun passes => ?_, fun low => by omega⟩⟩
      exact absurd (falls 0 position (Nat.zero_le _) inside passes) holds

/-- On a list whose elements pass the test first and fail it later, the test marks the positions of
its first part. -/
theorem lt_length_takeWhile_iff {A : Type} {test : A → Bool} {items : List A}
    (falls : items.Pairwise fun earlier later => test later = true → test earlier = true)
    {position : Nat} (inside : position < items.length) :
    test items[position] = true ↔ position < (items.takeWhile test).length := by
  induction items generalizing position with
  | nil => simp at inside
  | cons item rest ih =>
      obtain ⟨first, others⟩ := List.pairwise_cons.mp falls
      by_cases holds : test item = true
      · rw [List.takeWhile_cons_of_pos holds]
        cases position with
        | zero => simp [holds]
        | succ position => simpa using ih others (by simpa using inside)
      · rw [List.takeWhile_cons_of_neg holds]
        cases position with
        | zero => simp [holds]
        | succ position =>
            have bound : position < rest.length := by simpa using inside
            simpa using fun later => holds (first _ (List.getElem_mem bound) later)

/-- The boundary in a row is where a scan of the row would stop. -/
theorem Store.boundaryOf_eq {store : Store} {quark : Quark} {test : Interval → Bool}
    (falls : (store.intervalsOf quark).Pairwise
      fun earlier later => test later = true → test earlier = true) :
    store.boundaryOf quark test = ((store.intervalsOf quark).takeWhile test).length := by
  have size : (store.row quark).size = (store.intervalsOf quark).length := by
    simp [Store.intervalsOf]
  have entry (position : Nat) (inside : position < (store.intervalsOf quark).length) :
      ((store.row quark)[position]?).any test = test (store.intervalsOf quark)[position] := by
    simp [Store.intervalsOf, Array.getElem?_eq_getElem (size ▸ inside)]
  have marks (position : Nat) (inside : position < (store.intervalsOf quark).length) :
      ((store.row quark)[position]?).any test = true ↔
        position < ((store.intervalsOf quark).takeWhile test).length := by
    rw [entry position inside]
    exact lt_length_takeWhile_iff falls inside
  have bound : ((store.intervalsOf quark).takeWhile test).length ≤
      (store.intervalsOf quark).length := (List.takeWhile_sublist test).length_le
  rw [Store.boundaryOf, size]
  have falling : Falls (fun position => ((store.row quark)[position]?).any test)
      (store.intervalsOf quark).length := by
    intro low high order inside holds
    have upper := (marks high inside).mp holds
    exact (marks low (by omega)).mpr (by omega)
  obtain ⟨within, separates⟩ := boundary_iff falling
  -- both numbers mark the same positions
  apply Nat.le_antisymm
  · by_contra larger
    have inside : ((store.intervalsOf quark).takeWhile test).length <
        (store.intervalsOf quark).length := by omega
    have := (marks _ inside).mp ((separates _ inside).mpr (by omega))
    omega
  · by_contra smaller
    have inside : boundary (fun position => ((store.row quark)[position]?).any test)
        (store.intervalsOf quark).length < (store.intervalsOf quark).length := by omega
    have := (separates _ inside).mp ((marks _ inside).mpr (by omega))
    omega

/-- Ascending intervals end before the next one starts. -/
structure Ascends (row : List Interval) : Prop where
  ordered : ∀ interval ∈ row, interval.start ≤ interval.stop
  apart : row.Pairwise fun first next => first.stop < next.start

theorem Ascends.tail {interval : Interval} {rest : List Interval}
    (ascends : Ascends (interval :: rest)) : Ascends rest where
  ordered := fun other member => ascends.ordered other (List.mem_cons_of_mem _ member)
  apart := ascends.apart.of_cons

/-- Starts of ascending intervals ascend. -/
theorem Ascends.starts {row : List Interval} (ascends : Ascends row) (time : Time) :
    row.Pairwise fun earlier later =>
      decide (later.start ≤ time) = true → decide (earlier.start ≤ time) = true := by
  apply ascends.apart.imp_of_mem
  intro earlier later member _ before holds
  have ordered := ascends.ordered earlier member
  simp only [decide_eq_true_eq] at *
  lia

/-- Ends of ascending intervals ascend. -/
theorem Ascends.stops {row : List Interval} (ascends : Ascends row) (time : Time) :
    row.Pairwise fun earlier later =>
      decide (later.stop < time) = true → decide (earlier.stop < time) = true := by
  apply ascends.apart.imp_of_mem
  intro earlier later _ member before holds
  have ordered := ascends.ordered later member
  simp only [decide_eq_true_eq] at *
  lia

/-- Among ascending intervals only the last one that starts by a time can cover it. -/
theorem Ascends.find_eq {row : List Interval} (ascends : Ascends row) (time : Time) :
    row.find? (fun interval => interval.contains time) =
      match (row.takeWhile fun interval => decide (interval.start ≤ time)).length with
      | 0 => none
      | position + 1 => (row[position]?).filter fun interval => interval.contains time := by
  induction row with
  | nil => rfl
  | cons interval rest ih =>
      have before := (List.pairwise_cons.mp ascends.apart).1
      have ordered := ascends.ordered interval List.mem_cons_self
      have tail := ih ascends.tail
      by_cases started : interval.start ≤ time
      · rw [List.takeWhile_cons_of_pos (by simpa using started), List.length_cons]
        cases length : (rest.takeWhile fun other => decide (other.start ≤ time)).length with
        | zero =>
            rw [length] at tail
            by_cases covers : interval.contains time = true
            · simp [Option.filter, covers]
            · simp [Option.filter, covers, tail]
        | succ position =>
            rw [length] at tail
            cases rest with
            | nil => simp at length
            | cons next others =>
                have nextStarted : next.start ≤ time := by
                  by_contra late
                  rw [List.takeWhile_cons_of_neg (by simpa using late)] at length
                  cases length
                have passed : interval.contains time = false := by
                  have gap := before next List.mem_cons_self
                  simp [Interval.contains]
                  lia
                rw [List.find?_cons, passed, tail]
                rfl
      · rw [List.takeWhile_cons_of_neg (by simpa using started), List.length_nil]
        apply List.find?_eq_none.mpr
        intro other member
        rcases List.mem_cons.mp member with rfl | later
        · simp [Interval.contains, started]
        · have gap := before other later
          simp [Interval.contains]
          lia

/-- The closed interval at a time is the one that a scan of the row finds. -/
theorem Store.intervalAt_eq {store : Store} {quark : Quark}
    (ascends : Ascends (store.intervalsOf quark)) (time : Time) :
    store.intervalAt quark time =
      (store.intervalsOf quark).find? fun interval => interval.contains time := by
  rw [ascends.find_eq, Store.intervalAt, Store.boundaryOf_eq (ascends.starts time)]
  cases ((store.intervalsOf quark).takeWhile fun interval => interval.start ≤ time).length with
  | zero => rfl
  | succ position => simp only [Store.intervalsOf, Array.getElem?_toList]

/-- The bounds of a window lie within the row of its quark. -/
theorem Store.windowBounds_le {store : Store} {quark : Quark}
    (ascends : Ascends (store.intervalsOf quark)) (first last : Time) :
    (store.windowBounds quark first last).2 ≤ (store.intervalsOf quark).length := by
  rw [Store.windowBounds, Store.boundaryOf_eq (ascends.stops first),
    Store.boundaryOf_eq (ascends.starts last)]
  exact max_le (List.takeWhile_sublist _).length_le (List.takeWhile_sublist _).length_le

/-- A scan of a row reads the value at a time off the interval that covers it. -/
def scanned (row : List Interval) (time : Time) : Value :=
  ((row.find? fun interval => interval.contains time).map Interval.value).getD .null

/-- The value of a quark at a time is read off its ongoing interval or off a scan of its row. -/
theorem Store.valueAt_eq {store : Store} {quark : Quark}
    (ascends : Ascends (store.intervalsOf quark)) (time : Time) :
    store.valueAt quark time =
      match store.ongoingOf quark with
      | some ongoing =>
          if ongoing.start ≤ time then ongoing.value else scanned (store.intervalsOf quark) time
      | none => scanned (store.intervalsOf quark) time := by
  rw [Store.valueAt, store.intervalAt_eq ascends]
  cases store.ongoingOf quark <;> rfl

end Chronicle
