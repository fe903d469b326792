import Chronicle.Proofs.RecordedPast

/-!
A window that is kept reads the same intervals at every later moment. Its cursor counts down what is
left and never stops early, also when the history changes between two steps.
-/

namespace Chronicle

variable {window : Window} {history later : History}

/-- What a cursor has still to read: the selected closed intervals behind it, and the ongoing one
unless it was read. -/
def Window.left (window : Window) (history : History) (cursor : Cursor) : List Interval :=
  ((history.store.intervalsOf window.quark).take window.last).drop cursor.next ++
    (if cursor.ongoingRead then [] else window.ongoing.toList)

/-- A window fits a history that has all positions that it selects. -/
def Window.Fits (window : Window) (history : History) : Prop :=
  window.last ≤ (history.store.intervalsOf window.quark).length

/-- Every step takes the first of the intervals that are left. -/
theorem Window.Fits.step (fits : window.Fits history) (cursor : Cursor) :
    (window.step history cursor).1 = (window.left history cursor).head? ∧
      window.left history (window.step history cursor).2 = (window.left history cursor).tail := by
  unfold Window.Fits at fits
  unfold Window.step Window.left
  by_cases before : cursor.next < window.last
  · have inside : cursor.next <
        ((history.store.intervalsOf window.quark).take window.last).length := by
      rw [List.length_take]
      omega
    rw [if_pos before, List.drop_eq_getElem_cons inside]
    simp only [List.cons_append, List.head?_cons, List.tail_cons, and_true]
    rw [List.getElem_take, ← Array.getElem?_toList]
    exact List.getElem?_eq_getElem _
  · have read : ((history.store.intervalsOf window.quark).take window.last).drop cursor.next =
        [] := by
      apply List.drop_eq_nil_of_le
      rw [List.length_take]
      omega
    rw [if_neg before, read]
    by_cases done : cursor.ongoingRead = true
    · simp [done, read]
    · cases window.ongoing <;> simp [done, read]

/-- The number that remains is that of the intervals that are left. -/
theorem Window.Fits.remaining_eq (fits : window.Fits history) (cursor : Cursor) :
    window.remaining cursor = (window.left history cursor).length := by
  unfold Window.Fits at fits
  unfold Window.remaining Window.left
  rw [List.length_append, List.length_drop, List.length_take, Nat.min_eq_left fits]
  cases cursor.ongoingRead <;> cases window.ongoing <;> rfl

/-- With enough steps a reading gives all that is left and counts it down to zero. -/
theorem Window.Fits.readFrom_eq (fits : window.Fits history) (steps : Nat) (cursor : Cursor)
    (enough : (window.left history cursor).length < steps) :
    (window.readFrom history steps cursor).1.map Prod.snd = window.left history cursor ∧
      (window.readFrom history steps cursor).1.map Prod.fst ++
        [(window.readFrom history steps cursor).2] =
          (List.range ((window.left history cursor).length + 1)).reverse := by
  induction steps generalizing cursor with
  | zero => omega
  | succ steps ih =>
      obtain ⟨answer, moved⟩ := fits.step cursor
      have remaining := fits.remaining_eq cursor
      rw [Window.readFrom]
      generalize window.step history cursor = result at answer moved
      obtain ⟨answered, next⟩ := result
      simp only at answer moved
      cases left : window.left history cursor with
      | nil =>
          rw [left] at answer remaining
          rw [answer, remaining]
          exact ⟨rfl, rfl⟩
      | cons interval rest =>
          rw [left] at answer moved remaining enough
          rw [answer]
          simp only [List.head?_cons, List.map_cons, List.cons_append, remaining]
          rw [List.tail_cons] at moved
          rw [List.length_cons] at enough
          obtain ⟨intervals, counts⟩ := ih next (by rw [moved]; omega)
          rw [intervals, counts, moved, List.length_cons]
          have down (number : Nat) : (List.range (number + 2)).reverse =
              (number + 1) :: (List.range (number + 1)).reverse := by
            rw [List.range_succ, List.reverse_append, List.reverse_singleton,
              List.singleton_append]
          exact ⟨rfl, (down rest.length).symm⟩

/-- A history that extends the quark of a window leaves its cursors the same intervals. -/
theorem Window.Fits.left_eq (fits : window.Fits history)
    (continues : history.store.Extends later.store window.quark) (cursor : Cursor) :
    window.Fits later ∧ window.left later cursor = window.left history cursor := by
  obtain ⟨more, appended⟩ := continues.closed
  unfold Window.Fits at fits ⊢
  unfold Window.left
  rw [← appended, List.length_append, List.take_append_of_le_length fits]
  exact ⟨by omega, rfl⟩

/-- A reading along some moments takes every step at the history of its moment, and gives the number
that remained before the step with the answer to it. -/
def Window.readAlong (window : Window) : List History → Cursor → List (Nat × Option Interval)
  | [], _ => []
  | moment :: rest, cursor =>
      (window.remaining cursor, (window.step moment cursor).1) ::
        window.readAlong rest (window.step moment cursor).2

/-- Along any moments a reading gives what was left at first, and then nothing more. -/
theorem Window.Fits.readAlong_eq (fits : window.Fits history) (moments : List History)
    (extended : ∀ moment ∈ moments, history.store.Extends moment.store window.quark)
    (cursor : Cursor) :
    window.readAlong moments cursor = (List.range moments.length).map fun steps =>
      ((window.left history cursor).length - steps, (window.left history cursor)[steps]?) := by
  induction moments generalizing cursor with
  | nil => rfl
  | cons moment rest ih =>
      obtain ⟨fitsNow, same⟩ := fits.left_eq (extended moment List.mem_cons_self) cursor
      obtain ⟨answer, moved⟩ := fitsNow.step cursor
      have next := (fits.left_eq (extended moment List.mem_cons_self)
        (window.step moment cursor).2).2
      rw [Window.readAlong, ih fun other member => extended other (List.mem_cons_of_mem _ member),
        answer, fits.remaining_eq cursor, ← next, moved, same, List.length_cons,
        List.range_succ_eq_map, List.map_cons, List.map_map, List.head?_eq_getElem?]
      congr 1
      apply List.map_congr_left
      intro steps _
      simp only [Function.comp_apply, List.getElem?_tail, List.length_tail]
      congr 1
      omega

/-- A window of a quark is given for all times in order, and it can be kept: whatever is called on the
history, the window reads the same intervals at every later moment, as many as it has in size, and
the numbers that remain count down to zero. The same holds when the history goes on between
the steps of one reading. -/
theorem History.window_stable (reachable : history.Reachable) {quark : Quark}
    (inside : history.tree.contains quark = true) {first last : Time} (ordered : first ≤ last) :
    ∃ window, history.window quark first last = .ok window ∧
      (∀ later, history.Continues later →
        window.intervals later = window.intervals history ∧
        (window.intervals later).length = window.size ∧
        window.counts later = (List.range (window.size + 1)).reverse) ∧
      ∀ moments : List History, (∀ moment ∈ moments, history.Continues moment) →
        window.readAlong moments window.cursor = (List.range moments.length).map fun steps =>
          (window.size - steps, (window.intervals history)[steps]?) := by
  have sound := reachable.sound
  let bounds := history.store.windowBounds quark first last
  let window : Window := ⟨quark, bounds.1, bounds.2, history.ongoingInWindow quark last⟩
  have fits : window.Fits history :=
    Store.windowBounds_le (sound.tiled.tiling quark).ascends first last
  have size : window.size = (window.left history window.cursor).length := by
    rw [← fits.remaining_eq]
    rfl
  have read (later : History) (path : history.Continues later) :
      window.intervals later = window.left history window.cursor ∧
        window.counts later = (List.range (window.size + 1)).reverse := by
    obtain ⟨fitsLater, same⟩ := fits.left_eq (path.extends sound window.quark) window.cursor
    obtain ⟨intervals, counts⟩ :=
      fitsLater.readFrom_eq (window.size + 1) window.cursor (by rw [same, size]; omega)
    rw [same, ← size] at counts
    exact ⟨intervals.trans same, counts⟩
  have start := (read history Relation.ReflTransGen.refl).1
  refine ⟨window, ?_, ?_, ?_⟩
  · rw [History.window, if_neg (Nat.not_lt.mpr ordered), if_pos inside]
  · intro later path
    obtain ⟨intervals, counts⟩ := read later path
    exact ⟨intervals.trans start.symm, by rw [intervals, size], counts⟩
  · intro moments paths
    rw [fits.readAlong_eq moments (fun moment member =>
      (paths moment member).extends sound window.quark), size, start]

/-- A window over the status of the disk, made while that was busy since 5, still reads so after the
status was amended and changed, also when the changes come after the first step. -/
theorem History.window_stable_of_disk :
    let history := History.empty.writeAll busyWrites
    let later := history.writeAll calmingWrites
    let idle : Interval := ⟨1, 3, 4, .text "idle"⟩
    let busy : Interval := ⟨1, 5, 5, .text "busy"⟩
    history.Reachable ∧ history.tree.contains 1 = true ∧ 4 ≤ 9 ∧
      ∃ window, history.window 1 4 9 = .ok window ∧ window.intervals later = [idle, busy] ∧
        window.readAlong [history, later, later] window.cursor =
          [(2, some idle), (1, some busy), (0, none)] := by
  intro history later idle busy
  have reachable : history.Reachable := History.reachable_writeAll busyWrites
  have path : history.Continues later := History.continues_iff.mpr ⟨calmingWrites, rfl⟩
  have inside : history.tree.contains 1 = true := by decide
  obtain ⟨window, made, read, along⟩ :=
    History.window_stable reachable inside (show 4 ≤ 9 by decide)
  have known : history.window 1 4 9 = .ok ⟨1, 0, 1, some busy⟩ := by decide
  obtain rfl : window = ⟨1, 0, 1, some busy⟩ := Except.ok.inj (made.symm.trans known)
  have now : (⟨1, 0, 1, some busy⟩ : Window).intervals history = [idle, busy] := by decide
  refine ⟨reachable, inside, by decide, _, known, (read later path).1.trans now, ?_⟩
  rw [along [history, later, later], now]
  · rfl
  · intro moment member
    simp only [List.mem_cons, List.not_mem_nil, or_false, or_self] at member
    rcases member with same | same
    · rw [same]
      exact Relation.ReflTransGen.refl
    · rw [same]
      exact path

end Chronicle
