import Chronicle.Proofs.KeptWindows
import Chronicle.Proofs.LinearScans

/-!
What a window over a history reads: the closed intervals that share a time with it, and the ongoing one
if that starts by its end. Up to the latest time a window answers as the history does. The ongoing
interval is reported as ending at the latest time, which may lie before the window.
-/

namespace Chronicle

section Rows

variable {row part : List Interval}

/-- A part of some ascending intervals ascends. -/
theorem Ascends.sublist (ascends : Ascends row) (among : part.Sublist row) : Ascends part where
  ordered := fun interval member => ascends.ordered interval (among.subset member)
  apart := ascends.apart.sublist among

/-- Ascending intervals start one after the other and have no time in common. -/
theorem Ascends.disjoint (ascends : Ascends row) :
    row.Pairwise fun earlier later => earlier.start < later.start ∧
      ∀ time, earlier.contains time = true → later.contains time = false := by
  apply ascends.apart.imp_of_mem
  intro earlier later member _ before
  have ordered := ascends.ordered earlier member
  refine ⟨lt_of_le_of_lt ordered before, fun time covers => ?_⟩
  apply Bool.eq_false_iff.mpr
  rw [ne_eq, Interval.contains_iff]
  rw [Interval.contains_iff] at covers
  lia

/-- Lists in which the same intervals cover a time answer it alike. -/
theorem Answers.congr {time : Time} {value : Value} (answers : Answers row time value)
    (same : covering part time = covering row time) : Answers part time value := by
  cases answers with
  | covered only => exact .covered (same.trans only)
  | uncovered nowhere => exact .uncovered (same.trans nowhere)

end Rows

variable {history : History} {quark : Quark}

/-- An ongoing interval starts by the latest time. -/
theorem History.Tiled.latest_of_ongoing (tiled : history.Tiled) {ongoing : Ongoing}
    (held : history.store.ongoingOf quark = some ongoing) :
    ∃ latest, history.latestTime = some latest ∧ ongoing.start ≤ latest := by
  rcases tiled.span with ⟨_, _, blank⟩ | ⟨first, latest, _, present, _, bounded⟩
  · rw [(blank quark).2] at held
    cases held
  · exact ⟨latest, present, ((bounded quark).begun ongoing held).2⟩

/-- The intervals of a quark up to the latest time ascend. Where there is no latest time there are no
intervals, so any other time will do. -/
theorem History.Tiled.ascends_timeline (tiled : history.Tiled) (quark : Quark) (other : Time) :
    Ascends (history.store.timeline quark (history.latestTime.getD other)) := by
  apply ((tiled.tiling quark).stopped _).ascends
  intro ongoing held
  obtain ⟨latest, present, started⟩ := tiled.latest_of_ongoing held
  rw [present]
  exact started

/-- A window reports the ongoing interval up to the latest time. -/
theorem History.Tiled.ongoingInWindow_eq (tiled : history.Tiled) (quark : Quark)
    (last other : Time) :
    history.ongoingInWindow quark last =
      ((history.store.ongoingOf quark).filter fun ongoing => ongoing.start ≤ last).map
        fun ongoing => ongoing.close quark (history.latestTime.getD other) := by
  rw [History.ongoingInWindow]
  apply Option.map_congr
  intro ongoing held
  obtain ⟨latest, present, started⟩ :=
    tiled.latest_of_ongoing (Option.eq_some_of_filter_eq_some held)
  rw [present, Option.getD_some, Option.getD_some, max_eq_left started]

/-- The intervals that a window reports. -/
def History.reported (history : History) (quark : Quark) (first last : Time) : List Interval :=
  ((history.store.intervalsOf quark).filter fun interval => interval.intersects first last) ++
    (history.ongoingInWindow quark last).toList

/-- A window that fits a history reads all that its cursor has left at the start. -/
theorem Window.Fits.intervals_eq {window : Window} (fits : window.Fits history) :
    window.intervals history = window.left history window.cursor := by
  have size : window.size = (window.left history window.cursor).length := by
    rw [← fits.remaining_eq]
    rfl
  have enough : (window.left history window.cursor).length < window.size + 1 := by omega
  exact (fits.readFrom_eq (window.size + 1) window.cursor enough).1

/-- A window with its times in order is given, and reads what it reports. -/
theorem History.Tiled.window_reports (tiled : history.Tiled)
    (inside : history.tree.contains quark = true) {first last : Time} (ordered : first ≤ last) :
    ∃ window, history.window quark first last = .ok window ∧
      window.intervals history = history.reported quark first last := by
  have ascends := (tiled.tiling quark).ascends
  let bounds := history.store.windowBounds quark first last
  let window : Window := ⟨quark, bounds.1, bounds.2, history.ongoingInWindow quark last⟩
  have fits : window.Fits history := Store.windowBounds_le ascends first last
  have slice : ((history.store.intervalsOf quark).take bounds.2).drop bounds.1 = _ :=
    Store.slice_windowBounds ascends first last
  refine ⟨window, ?_, ?_⟩
  · rw [History.window, if_neg (Nat.not_lt.mpr ordered), if_pos inside]
  · rw [fits.intervals_eq, History.reported, ← slice]
    rfl

/-- What a window reports is a part of the timeline up to the latest time. -/
theorem History.Tiled.reported_sublist (tiled : history.Tiled) (quark : Quark)
    (first last other : Time) :
    (history.reported quark first last).Sublist
      (history.store.timeline quark (history.latestTime.getD other)) := by
  rw [History.reported, Store.timeline, tiled.ongoingInWindow_eq quark last other]
  apply List.Sublist.append List.filter_sublist
  cases history.store.ongoingOf quark with
  | none => exact List.Sublist.refl _
  | some ongoing =>
      by_cases started : ongoing.start ≤ last
      · rw [Option.filter_some_pos (by simpa using started)]
      · rw [Option.filter_some_neg (by simpa using started)]
        exact List.nil_sublist _

/-- At a time within the window, nothing of the timeline that covers the time is missing. -/
theorem History.Tiled.covering_reported (tiled : history.Tiled) {first last time : Time}
    (after : first ≤ time) (before : time ≤ last) (other : Time) :
    covering (history.reported quark first last) time =
      covering (history.store.timeline quark (history.latestTime.getD other)) time := by
  rw [History.reported, Store.timeline, tiled.ongoingInWindow_eq quark last other, covering,
    covering, List.filter_append, List.filter_append, List.filter_filter]
  congr 1
  · apply List.filter_congr
    intro interval _
    by_cases covers : interval.contains time = true
    · have meets : interval.intersects first last = true := by
        rw [Interval.contains_iff] at covers
        rw [Interval.intersects_iff]
        lia
      rw [covers, meets, Bool.and_self]
    · simp [covers]
  · cases history.store.ongoingOf quark with
    | none => rfl
    | some ongoing =>
        by_cases started : ongoing.start ≤ last
        · rw [Option.filter_some_pos (by simpa using started)]
        · have late : ¬ongoing.start ≤ time := by lia
          rw [Option.filter_some_neg (by simpa using started)]
          simp [Interval.contains, Ongoing.close, late]

/-- A window answers every time within it as the history does, up to the latest time. What it reads are
intervals that start one after the other and have no time in common, so at most one of them
covers the time, and the value at the time is the value of that one, or none where none covers it. -/
theorem History.window_answers (reachable : history.Reachable)
    (inside : history.tree.contains quark = true) {first last : Time} (ordered : first ≤ last) :
    ∃ window, history.window quark first last = .ok window ∧
      ((window.intervals history).Pairwise fun earlier later => earlier.start < later.start ∧
        ∀ time, earlier.contains time = true → later.contains time = false) ∧
      ∀ time, first ≤ time → time ≤ last →
        (∀ latest, history.latestTime = some latest → time ≤ latest) →
        ∃ value, history.valueAt quark time = .ok value ∧
          Answers (window.intervals history) time value := by
  have tiled := reachable.sound.tiled
  obtain ⟨window, made, read⟩ := tiled.window_reports inside ordered
  refine ⟨window, made, ?_⟩
  rw [read]
  refine ⟨?_, fun time after before recorded => ?_⟩
  · exact ((tiled.ascends_timeline quark first).sublist
      (tiled.reported_sublist quark first last first)).disjoint
  · -- Without a latest time the timeline is empty, and may as well be closed at the time itself.
    have within : time ≤ history.latestTime.getD time := by
      cases present : history.latestTime with
      | none => exact le_refl time
      | some latest => exact recorded latest present
    have value := history.store.valueAt_timeline (tiled.tiling quark) within
    refine ⟨history.store.valueAt quark time, by rw [History.valueAt, if_pos inside], ?_⟩
    rw [value]
    exact ((tiled.ascends_timeline quark time).answers time).congr
      (tiled.covering_reported after before time)

/-- The status of the disk is busy since 5, the latest time. The window from 4 to 9 answers 4 and 5 as the
history does. -/
theorem History.window_answers_of_disk :
    let history := History.empty.writeAll busyWrites
    history.Reachable ∧ history.tree.contains 1 = true ∧ 4 ≤ 9 ∧
      ∃ window, history.window 1 4 9 = .ok window ∧
        history.valueAt 1 4 = .ok (.text "idle") ∧
        Answers (window.intervals history) 4 (.text "idle") ∧
        history.valueAt 1 5 = .ok (.text "busy") ∧
        Answers (window.intervals history) 5 (.text "busy") := by
  intro history
  have reachable : history.Reachable := History.reachable_writeAll busyWrites
  have inside : history.tree.contains 1 = true := by decide
  obtain ⟨window, made, _, answers⟩ :=
    History.window_answers reachable inside (show 4 ≤ 9 by decide)
  have present : history.latestTime = some 5 := by decide
  have recorded {time : Time} (early : time ≤ 5) :
      ∀ latest, history.latestTime = some latest → time ≤ latest := by
    intro latest held
    rwa [← Option.some.inj (present.symm.trans held)]
  have idle : history.valueAt 1 4 = .ok (.text "idle") := by decide
  have busy : history.valueAt 1 5 = .ok (.text "busy") := by decide
  obtain ⟨first, firstHeld, firstRead⟩ :=
    answers 4 (by decide) (by decide) (recorded (by decide))
  obtain ⟨second, secondHeld, secondRead⟩ :=
    answers 5 (by decide) (by decide) (recorded (by decide))
  rw [Except.ok.inj (firstHeld.symm.trans idle)] at firstRead
  rw [Except.ok.inj (secondHeld.symm.trans busy)] at secondRead
  exact ⟨reachable, inside, by decide, window, made, idle, firstRead, busy, secondRead⟩

/-- The intervals that a window reads share a time with it, except that the one reported for the ongoing
interval, which starts by the end of the window and is reported as ending at the latest time, shares a
time with the window exactly when the window does not start after the latest time. -/
theorem History.window_within (reachable : history.Reachable)
    (inside : history.tree.contains quark = true) {first last : Time} (ordered : first ≤ last) :
    ∃ window, history.window quark first last = .ok window ∧
      ∀ interval ∈ window.intervals history,
        (interval ∈ history.store.intervalsOf quark ∧ interval.intersects first last = true) ∨
        ∃ ongoing latest, history.store.ongoingOf quark = some ongoing ∧
          history.latestTime = some latest ∧ interval = ongoing.close quark latest ∧
          ongoing.start ≤ last ∧ (interval.intersects first last = true ↔ first ≤ latest) := by
  have tiled := reachable.sound.tiled
  obtain ⟨window, made, read⟩ := tiled.window_reports inside ordered
  refine ⟨window, made, fun interval member => ?_⟩
  rw [read, History.reported] at member
  rcases List.mem_append.mp member with closed | reported
  · exact Or.inl (List.mem_filter.mp closed)
  · rw [tiled.ongoingInWindow_eq quark last first, Option.mem_toList] at reported
    obtain ⟨ongoing, kept, same⟩ := Option.map_eq_some_iff.mp reported
    obtain ⟨held, started⟩ := Option.filter_eq_some_iff.mp kept
    rw [decide_eq_true_eq] at started
    obtain ⟨latest, present, _⟩ := tiled.latest_of_ongoing held
    rw [present, Option.getD_some] at same
    refine Or.inr ⟨ongoing, latest, held, present, same.symm, started, ?_⟩
    rw [← same, Interval.intersects_iff]
    exact and_iff_right started

/-- The window from 4 to 9 starts before the latest time 5, so that all it reads shares a time with it. -/
theorem History.window_within_of_disk :
    let history := History.empty.writeAll busyWrites
    history.Reachable ∧ history.tree.contains 1 = true ∧ 4 ≤ 9 ∧
      ∃ window, history.window 1 4 9 = .ok window ∧
        ∀ interval ∈ window.intervals history, interval.intersects 4 9 = true := by
  intro history
  have reachable : history.Reachable := History.reachable_writeAll busyWrites
  have inside : history.tree.contains 1 = true := by decide
  obtain ⟨window, made, within⟩ := History.window_within reachable inside (show 4 ≤ 9 by decide)
  have recorded : history.latestTime = some 5 := by decide
  refine ⟨reachable, inside, by decide, window, made, fun interval member => ?_⟩
  rcases within interval member with ⟨_, meets⟩ | ⟨_, latest, _, present, _, _, meets⟩
  · exact meets
  · rw [recorded, Option.some.injEq] at present
    rw [meets, ← present]
    decide

/-- The window from 7 to 9 starts after the latest time 5. It reads the ongoing interval as one that ends
at 5, and so shares no time with the window. -/
theorem History.window_beyond_latest :
    let history := History.empty.writeAll busyWrites
    let busy : Interval := ⟨1, 5, 5, .text "busy"⟩
    history.Reachable ∧ history.tree.contains 1 = true ∧ 7 ≤ 9 ∧
      ∃ window, history.window 1 7 9 = .ok window ∧ busy ∈ window.intervals history ∧
        busy.intersects 7 9 = false :=
  ⟨History.reachable_writeAll busyWrites, by decide, by decide, ⟨1, 1, 1, some ⟨1, 5, 5, .text "busy"⟩⟩,
    by decide, by decide, by decide⟩

end Chronicle
