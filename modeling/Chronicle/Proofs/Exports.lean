import Chronicle.History.Snapshot
import Chronicle.Proofs.ClosedHistories
import Chronicle.Proofs.LinearScans
import Chronicle.Proofs.TileValues

/-!
The export of a closed history holds all of it: every attribute with its path, and every closed interval
once, by quark and start. A scan of the exported intervals of a quark answers every time.
-/

namespace Chronicle

/-- In an export an interval comes before those of later quarks and the later ones of its own. -/
def Interval.Precedes (interval next : Interval) : Prop :=
  interval.quark < next.quark ∨ interval.quark = next.quark ∧ interval.start < next.start

/-- Tiles are spaced without a gap. -/
theorem Tiling.spaced {quark : Quark} {row : List Interval} {ongoing : Option Ongoing}
    (tiling : Tiling quark row ongoing) : Spaced quark row ongoing where
  owned := tiling.owned
  ascends := tiling.ascends
  behind := by
    intro current held
    rw [held] at tiling
    exact tiling.stop_lt

/-- The store of a tiled history is sorted. -/
theorem History.Tiled.sorted {history : History} (tiled : history.Tiled) :
    history.store.Sorted where
  spaced := fun quark => (tiled.tiling quark).spaced
  level := tiled.level
  counted := tiled.counted

section Rows

variable {store : Store}

/-- All closed intervals are those of the quarks within the table, one after the other. -/
theorem Store.allIntervals_eq (store : Store) :
    store.allIntervals = (List.range store.closed.size).flatMap store.intervalsOf := by
  have rows : store.closed.toList = (List.range store.closed.size).map store.row := by
    apply List.ext_getElem
    · simp
    · intro position inside _
      have bound : position < store.closed.size := by simpa using inside
      simp [Store.row, bound]
  rw [Store.allIntervals, rows, List.flatMap_map]
  rfl

/-- A quark beyond the table has no closed interval. -/
theorem Store.intervalsOf_beyond {quark : Quark} (beyond : store.closed.size ≤ quark) :
    store.intervalsOf quark = [] := by
  simp [Store.intervalsOf, Store.row, beyond]

/-- Of the rows of a table only one is kept. -/
theorem flatMap_range_single {A : Type} (rows : Nat → List A) (kept size : Nat) :
    ((List.range size).flatMap fun number => if number = kept then rows number else []) =
      if kept < size then rows kept else [] := by
  induction size with
  | zero => rfl
  | succ size ih =>
      rw [List.range_succ, List.flatMap_append, ih, List.flatMap_singleton]
      rcases Nat.lt_trichotomy kept size with below | same | above
      · rw [if_pos below, if_neg (Nat.ne_of_gt below), if_pos (Nat.lt_succ_of_lt below),
          List.append_nil]
      · rw [same, if_neg (Nat.lt_irrefl size), if_pos rfl, if_pos (Nat.lt_succ_self size),
          List.nil_append]
      · rw [if_neg (Nat.not_lt_of_gt above), if_neg (Nat.ne_of_lt above),
          if_neg (Nat.not_lt_of_ge above), List.append_nil]

/-- The closed intervals that carry a quark are those in its row. -/
theorem Store.Sorted.filter_allIntervals (sorted : store.Sorted) (quark : Quark) :
    (store.allIntervals.filter fun interval => interval.quark = quark) =
      store.intervalsOf quark := by
  have part (owner : Quark) : ((store.intervalsOf owner).filter fun interval =>
      interval.quark = quark) = if owner = quark then store.intervalsOf owner else [] := by
    have owned := (sorted.spaced owner).owned
    by_cases same : owner = quark
    · rw [if_pos same, List.filter_eq_self]
      intro interval member
      rw [owned interval member]
      exact decide_eq_true same
    · rw [if_neg same, List.filter_eq_nil_iff]
      intro interval member
      rw [owned interval member]
      simpa using same
  rw [Store.allIntervals_eq, List.filter_flatMap]
  simp only [part]
  rw [flatMap_range_single store.intervalsOf]
  by_cases inside : quark < store.closed.size
  · rw [if_pos inside]
  · rw [if_neg inside, Store.intervalsOf_beyond (Nat.le_of_not_lt inside)]

/-- All closed intervals are in order of their quarks and starts. -/
theorem Store.Sorted.allIntervals_precede (sorted : store.Sorted) :
    store.allIntervals.Pairwise Interval.Precedes := by
  rw [Store.allIntervals_eq, List.pairwise_flatMap]
  constructor
  · intro quark _
    have spaced := sorted.spaced quark
    apply spaced.ascends.apart.imp_of_mem
    intro interval next member later before
    have ordered := spaced.ascends.ordered interval member
    exact Or.inr ⟨(spaced.owned interval member).trans (spaced.owned next later).symm,
      lt_of_le_of_lt ordered before⟩
  · apply List.pairwise_lt_range.imp
    intro quark other before interval member next later
    rw [← (sorted.spaced quark).owned interval member,
      ← (sorted.spaced other).owned next later] at before
    exact Or.inl before

end Rows

/-- An accepted close leads to a tiled history in which nothing is ongoing. -/
theorem History.Sound.close_idle {history : History} (sound : history.Sound) {stop : Time}
    {count : Nat} (closing : (history.close stop).result = .ok count) :
    (history.close stop).state.Tiled ∧
      ∀ quark, (history.close stop).state.store.ongoingOf quark = none := by
  have after := (sound.write (.close stop)).tiled
  rw [History.write, Attempt.state_silent] at after
  exact ⟨after, fun quark => (after.frozen (History.closed_of_close closing) quark).1⟩

/-- An export pairs every quark in creation order with its path. -/
theorem History.attributes_export (history : History) (separator : Char) :
    (history.export separator).attributes.map (fun listed =>
        (listed.quark, some listed.path)) =
      (List.range history.tree.size).map fun quark =>
        (quark, history.tree.pathOf quark separator) := by
  rw [History.export, List.map_filterMap, ← List.filterMap_eq_map]
  apply List.filterMap_congr
  intro quark member
  have inside : history.tree.contains quark = true := by
    simpa [Tree.contains] using List.mem_range.mp member
  simp [Tree.pathOf, inside]

/-- After an accepted close the export is complete. It lists every quark with its path in creation
order. Its intervals are in strict order of quark and start, those of each quark are exactly its
closed intervals, and there are as many as the history counts. They answer every time: the value
of an attribute is that of its only exported interval that covers the time, or none. -/
theorem History.export_complete {earlier : History} (reachable : earlier.Reachable) {stop : Time}
    {count : Nat} (closing : (earlier.close stop).result = .ok count) (separator : Char) :
    let history := (earlier.close stop).state
    let exported := history.export separator
    (exported.attributes.map fun listed => (listed.quark, some listed.path)) =
        ((List.range history.tree.size).map fun quark =>
          (quark, history.tree.pathOf quark separator)) ∧
      exported.intervals.Pairwise Interval.Precedes ∧
      (∀ quark, (exported.intervals.filter fun interval => interval.quark = quark) =
        history.store.intervalsOf quark) ∧
      exported.intervals.length = history.store.closedCount ∧
      ∀ quark, history.tree.contains quark = true → ∀ time,
        ∃ value, history.valueAt quark time = .ok value ∧
          Answers (exported.intervals.filter fun interval => interval.quark = quark) time
            value := by
  intro history exported
  obtain ⟨tiled, idle⟩ := reachable.sound.close_idle closing
  have sorted : history.store.Sorted := tiled.sorted
  refine ⟨history.attributes_export separator, sorted.allIntervals_precede,
    sorted.filter_allIntervals, sorted.counted.symm, ?_⟩
  intro quark inside time
  have own : (exported.intervals.filter fun interval => interval.quark = quark) =
      history.store.intervalsOf quark := sorted.filter_allIntervals quark
  have ascends := (sorted.spaced quark).ascends
  have value : history.store.valueAt quark time =
      scanned (history.store.intervalsOf quark) time := by
    rw [Store.valueAt_eq ascends, idle quark]
  refine ⟨history.store.valueAt quark time, by rw [History.valueAt, if_pos inside], ?_⟩
  rw [own, value]
  exact ascends.answers time

/-- The status of the disk changes at 5, and the load is only known from 6 on. -/
def loadedWrites : List Write :=
  [.resolve none ["disk", "status"], .resolve none ["load"], .modify 3 1 (.text "idle"),
    .modify 5 1 (.text "busy"), .modify 6 2 (.int 80)]

/-- Closed at 9, the session is exported with three attributes and three intervals. The export answers 4
with the status and with no load. -/
theorem History.export_complete_of_disk :
    let earlier := History.empty.writeAll loadedWrites
    let exported := (earlier.close 9).state.export '/'
    earlier.Reachable ∧ (earlier.close 9).result = .ok 2 ∧
      (exported.attributes.map fun listed => (listed.quark, some listed.path)) =
        [(0, some "disk"), (1, some "disk/status"), (2, some "load")] ∧
      exported.intervals.length = 3 ∧
      Answers (exported.intervals.filter fun interval => interval.quark = 1) 4 (.text "idle") ∧
      Answers (exported.intervals.filter fun interval => interval.quark = 2) 4 .null := by
  intro earlier exported
  have reachable : earlier.Reachable := History.reachable_writeAll loadedWrites
  have closing : (earlier.close 9).result = .ok 2 := by decide
  obtain ⟨paths, _, _, counted, answers⟩ := History.export_complete reachable closing '/'
  have status : (earlier.close 9).state.valueAt 1 4 = .ok (.text "idle") := by decide
  have load : (earlier.close 9).state.valueAt 2 4 = .ok .null := by decide
  obtain ⟨first, firstHeld, firstRead⟩ := answers 1 (by decide) 4
  obtain ⟨second, secondHeld, secondRead⟩ := answers 2 (by decide) 4
  rw [Except.ok.inj (firstHeld.symm.trans status)] at firstRead
  rw [Except.ok.inj (secondHeld.symm.trans load)] at secondRead
  exact ⟨reachable, closing, paths.trans (by decide), counted.trans (by decide), firstRead,
    secondRead⟩

end Chronicle
