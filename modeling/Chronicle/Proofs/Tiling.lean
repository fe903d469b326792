import Chronicle.History.Basic
import Chronicle.Proofs.StoreSealing
import Mathlib.Data.List.Chain

/-!
What holds of the intervals of a history at any moment: those of one quark follow each other without
a gap, and all lie within the span of accepted times.
-/

namespace Chronicle

/-- The intervals of a quark tile a part of the time, and the ongoing one continues them. -/
structure Tiling (quark : Quark) (row : List Interval) (ongoing : Option Ongoing) : Prop where
  owned : ∀ interval ∈ row, interval.quark = quark
  ordered : ∀ interval ∈ row, interval.start ≤ interval.stop
  contiguous : row.IsChain fun first next => next.start = first.stop + 1
  continued : ∀ current last, ongoing = some current → row.getLast? = some last →
    current.start = last.stop + 1

/-- The intervals lie between the first and the latest time. -/
structure Bounded (first latest : Time) (row : List Interval) (ongoing : Option Ongoing) :
    Prop where
  closed : ∀ interval ∈ row,
    first ≤ interval.start ∧ interval.start ≤ latest ∧ interval.stop ≤ latest
  begun : ∀ current, ongoing = some current → first ≤ current.start ∧ current.start ≤ latest

/-- A tiled history has no gaps and no overlaps, and its span covers all its intervals. -/
structure History.Tiled (history : History) : Prop where
  tiling : ∀ quark, Tiling quark (history.store.intervalsOf quark) (history.store.ongoingOf quark)
  span :
    (history.startTime = none ∧ history.latestTime = none ∧
      ∀ quark, history.store.intervalsOf quark = [] ∧ history.store.ongoingOf quark = none) ∨
    ∃ first latest, history.startTime = some first ∧ history.latestTime = some latest ∧
      first ≤ latest ∧ ∀ quark,
        Bounded first latest (history.store.intervalsOf quark) (history.store.ongoingOf quark)
  issued : ∀ quark,
    history.store.intervalsOf quark ≠ [] ∨ (history.store.ongoingOf quark).isSome = true →
      history.tree.contains quark = true
  level : history.store.Level
  counted : history.store.closedCount = history.store.allIntervals.length
  frozen : history.closed = true → ∀ quark, history.store.ongoingOf quark = none ∧
    ∀ last, (history.store.intervalsOf quark).getLast? = some last →
      history.latestTime = some last.stop
  running : history.closed = false → ∀ quark, history.store.ongoingOf quark = none →
    history.store.intervalsOf quark = []

section Tiling

variable {quark : Quark} {row : List Interval} {ongoing : Ongoing}

theorem Tiling.empty (quark : Quark) : Tiling quark [] none where
  owned := by simp
  ordered := by simp
  contiguous := List.IsChain.nil
  continued := by simp

theorem Tiling.begin (quark : Quark) (ongoing : Ongoing) : Tiling quark [] (some ongoing) where
  owned := by simp
  ordered := by simp
  contiguous := List.IsChain.nil
  continued := by simp

/-- The value of the ongoing interval does not matter. -/
theorem Tiling.amend {open? : Option Ongoing} (tiling : Tiling quark row open?) (value : Value) :
    Tiling quark row (open?.map fun ongoing => { ongoing with value := value }) where
  owned := tiling.owned
  ordered := tiling.ordered
  contiguous := tiling.contiguous
  continued := by
    intro current last held final
    obtain ⟨ongoing, before, rfl⟩ := Option.map_eq_some_iff.mp held
    exact tiling.continued ongoing last before final

/-- An ongoing interval that stops is the last tile, and the next one starts just after it. -/
theorem Tiling.cut (tiling : Tiling quark row (some ongoing)) {stop : Time}
    (reached : ongoing.start ≤ stop) (value : Value) :
    Tiling quark (row ++ [ongoing.close quark stop]) (some ⟨stop + 1, value⟩) where
  owned := by
    intro interval member
    rcases List.mem_append.mp member with old | new
    · exact tiling.owned interval old
    · rw [List.mem_singleton.mp new, Ongoing.close]
  ordered := by
    intro interval member
    rcases List.mem_append.mp member with old | new
    · exact tiling.ordered interval old
    · rw [List.mem_singleton.mp new]
      exact reached
  contiguous := by
    apply List.isChain_append.mpr ⟨tiling.contiguous, List.isChain_singleton _, ?_⟩
    intro last final next first
    simp only [List.head?_cons, Option.mem_def, Option.some.injEq] at first
    rw [← first]
    exact tiling.continued ongoing last rfl final
  continued := by
    rintro current last ⟨rfl⟩ final
    simp only [List.getLast?_append, List.getLast?_singleton, Option.some_or,
      Option.some.injEq] at final
    rw [← final, Ongoing.close]

/-- When an ongoing interval ends, its quark is tiled by closed intervals only. -/
theorem Tiling.stopped {open? : Option Ongoing} (tiling : Tiling quark row open?) {stop : Time}
    (reached : ∀ ongoing, open? = some ongoing → ongoing.start ≤ stop) :
    Tiling quark (row ++ (open?.map fun ongoing => ongoing.close quark stop).toList) none := by
  cases open? with
  | none => simpa using tiling
  | some ongoing =>
      have last := tiling.cut (reached ongoing rfl) ongoing.value
      exact ⟨last.owned, last.ordered, last.contiguous, by simp⟩

end Tiling

section Bounded

variable {first latest : Time} {quark : Quark} {row : List Interval}
  {open? : Option Ongoing}

theorem Bounded.empty (first latest : Time) : Bounded first latest [] none := ⟨by simp, by simp⟩

theorem Bounded.later (bounded : Bounded first latest row open?) {time : Time}
    (after : latest ≤ time) : Bounded first time row open? where
  closed := by
    intro interval member
    obtain ⟨lower, upper, stop⟩ := bounded.closed interval member
    exact ⟨lower, upper.trans after, stop.trans after⟩
  begun := by
    intro current held
    obtain ⟨lower, upper⟩ := bounded.begun current held
    exact ⟨lower, upper.trans after⟩

theorem Bounded.amend (bounded : Bounded first latest row open?) (value : Value) :
    Bounded first latest row (open?.map fun ongoing => { ongoing with value := value }) where
  closed := bounded.closed
  begun := by
    intro current held
    obtain ⟨ongoing, before, rfl⟩ := Option.map_eq_some_iff.mp held
    exact bounded.begun ongoing before

theorem Bounded.begin (bounded : Bounded first latest row open?)
    (within : first ≤ latest) (value : Value) : Bounded first latest row (some ⟨latest, value⟩) where
  closed := bounded.closed
  begun := by
    rintro current ⟨rfl⟩
    exact ⟨within, le_refl _⟩

/-- An ongoing interval that stops within the bounds becomes a closed one within the bounds. -/
theorem Bounded.stopped (bounded : Bounded first latest row open?) {stop : Time}
    (within : stop ≤ latest) :
    Bounded first latest (row ++ (open?.map fun ongoing => ongoing.close quark stop).toList)
      none where
  closed := by
    intro interval member
    rcases List.mem_append.mp member with old | new
    · exact bounded.closed interval old
    · obtain ⟨ongoing, held, rfl⟩ := Option.map_eq_some_iff.mp (Option.mem_toList.mp new)
      obtain ⟨lower, upper⟩ := bounded.begun ongoing held
      exact ⟨lower, upper, within⟩
  begun := by simp

end Bounded

end Chronicle
