import Chronicle.Proofs.SoundHistories

/-!
What holds of every reachable history: its intervals tile the time, and its writes are atomic and
fail for exact reasons.
-/

namespace Chronicle

/-- A used quark was ongoing at some time. -/
def Store.Used (store : Store) (quark : Quark) : Prop :=
  store.intervalsOf quark ≠ [] ∨ (store.ongoingOf quark).isSome = true

/-- No write forgets that a quark was used. -/
theorem History.Sound.used_write {history : History} (sound : history.Sound) (write : Write)
    {quark : Quark} (used : history.store.Used quark) :
    (history.write write).state.store.Used quark := by
  unfold Store.Used at *
  rw [sound.write_eq write]
  cases granted : write.fault history with
  | some error => exact used
  | none =>
      simp only [Attempt.state_done]
      cases concerned : write.concerns quark with
      | false =>
          obtain ⟨row, state, _⟩ := sound.written_frame granted concerned
          rwa [row, state]
      | true =>
          cases write with
          | resolve parent path => cases concerned
          | modify time target value =>
              obtain rfl : target = quark := by simpa [Write.concerns] using concerned
              have state : (history.written (.modify time target value)).store.ongoingOf target = _ :=
                (Store.ongoingOf_recorded sound.tiled.level target).trans (if_pos rfl)
              simp [state]
          | amend target value =>
              obtain rfl : target = quark := by simpa [Write.concerns] using concerned
              simpa [History.written, History.withStore, Store.ongoingOf_revalued] using used
          | amendAt time target value =>
              obtain rfl : target = quark := by simpa [Write.concerns] using concerned
              simpa [History.written, History.advance, History.withStore,
                Store.ongoingOf_revalued] using used
          | close stop =>
              have row : (history.written (.close stop)).store.intervalsOf quark = _ :=
                Store.intervalsOf_sealed sound.tiled.level quark
              rw [row, Store.timeline]
              rcases used with closed | ongoing
              · exact Or.inl fun empty => closed (List.append_eq_nil_iff.mp empty).1
              · obtain ⟨state, held⟩ := Option.isSome_iff_exists.mp ongoing
                simp [held]

/-- Every reachable history is tiled, and once it is closed, the last interval of every quark that
was ever ongoing ends at the latest time. -/
theorem History.reachable_tiled {earlier history : History} (start : earlier.Reachable)
    (later : earlier.Continues history) :
    history.Tiled ∧ (history.closed = true →
      ∀ quark, (earlier.store.ongoingOf quark).isSome = true →
        ∃ last, (history.store.intervalsOf quark).getLast? = some last ∧
          history.latestTime = some last.stop) := by
  have sound := later.sound start.sound
  refine ⟨sound.tiled, fun closed quark ongoing => ?_⟩
  let Kept (state : History) : Prop := state.Sound ∧ state.store.Used quark
  have step (before : History) (write : Write) (kept : Kept before) :
      Kept (before.write write).state :=
    ⟨kept.1.write write, kept.1.used_write write kept.2⟩
  have used : history.store.Used quark := (later.keeps step ⟨start.sound, Or.inr ongoing⟩).2
  obtain ⟨idle, ends⟩ := sound.tiled.frozen closed quark
  rcases used with present | impossible
  · refine ⟨_, List.getLast?_eq_some_getLast present, ?_⟩
    exact ends _ (List.getLast?_eq_some_getLast present)
  · rw [idle] at impossible
    cases impossible

/-- The writes open an attribute, change it and close the history. -/
def openedWrites : List Write := [.resolve none ["disk", "status"], .modify 3 1 (.text "idle")]

def closingWrites : List Write := [.modify 5 1 (.text "busy"), .close 9]

/-- An attribute that was open at 3 and changed at 5 ends at the closing time 9. -/
theorem History.tiled_after_closing :
    let earlier := History.empty.writeAll openedWrites
    let history := earlier.writeAll closingWrites
    earlier.Reachable ∧ earlier.Continues history ∧ history.Tiled ∧
      ∃ last, (history.store.intervalsOf 1).getLast? = some last ∧
        history.latestTime = some last.stop := by
  have start := History.reachable_writeAll openedWrites
  have later : (History.empty.writeAll openedWrites).Continues
      ((History.empty.writeAll openedWrites).writeAll closingWrites) :=
    History.continues_iff.mpr ⟨closingWrites, rfl⟩
  obtain ⟨tiled, ends⟩ := History.reachable_tiled start later
  exact ⟨start, later, tiled, ends (by decide) 1 (by decide)⟩

/-- An inner error is one that only the store reports, between closing and opening an interval. -/
def HistoryError.inner : HistoryError → Bool
  | .endBeforeStart _ _ _ => true
  | .alreadyOngoing _ _ => true
  | _ => false

/-- The faults of a write are never inner errors. -/
theorem Write.inner_fault (write : Write) (history : History) :
    ∀ error ∈ write.fault history, error.inner = false := by
  have closed : ∀ error ∈ history.closedFault, error.inner = false := by
    unfold History.closedFault
    split <;> simp [HistoryError.inner]
  have order (time : Time) : ∀ error ∈ history.orderFault time, error.inner = false := by
    unfold History.orderFault
    cases history.latestTime with
    | none => simp
    | some latest => by_cases early : time < latest <;> simp [early, HistoryError.inner]
  have unknown (quark : Quark) : ∀ error ∈ history.quarkFault quark, error.inner = false := by
    unfold History.quarkFault
    split <;> simp [HistoryError.inner]
  have idle (quark : Quark) : ∀ error ∈ history.idleFault quark, error.inner = false := by
    unfold History.idleFault
    split <;> simp [HistoryError.inner]
  have path (parent : Option Quark) (names : List String) :
      ∀ error ∈ history.tree.pathFault parent names, error.inner = false := by
    unfold Tree.pathFault
    split <;> simp [HistoryError.inner]
  have either {first second : Option HistoryError}
      (former : ∀ error ∈ first, error.inner = false)
      (latter : ∀ error ∈ second, error.inner = false) :
      ∀ error ∈ first.or second, error.inner = false := by
    cases first with
    | none => simpa using latter
    | some error => simpa using former
  cases write with
  | resolve parent names =>
      simp only [Write.fault]
      split
      · simp
      · exact either closed (path parent names)
  | modify time quark value => exact either (either closed (order time)) (unknown quark)
  | amend quark value => exact either closed (idle quark)
  | amendAt time quark value => exact either (either closed (order time)) (idle quark)
  | close stop => exact either closed (order stop)

/-- A write on a reachable history fails exactly for its fault, which is never an error between
closing and opening an interval, and a write that fails changes nothing. -/
theorem History.write_atomic {history : History} (reachable : history.Reachable) (write : Write) :
    (history.write write).result =
        (match write.fault history with
        | some error => .error error
        | none => .ok ()) ∧
      ∀ error, (history.write write).result = .error error →
        (history.write write).state = history ∧
        (∀ quark start stop, error ≠ .endBeforeStart quark start stop) ∧
        ∀ quark start, error ≠ .alreadyOngoing quark start := by
  rw [reachable.sound.write_eq write]
  cases granted : write.fault history with
  | some fault =>
      refine ⟨rfl, ?_⟩
      rintro error ⟨rfl⟩
      have outer := write.inner_fault history fault granted
      refine ⟨rfl, ?_, ?_⟩
      · rintro quark start stop rfl
        cases outer
      · rintro quark start rfl
        cases outer
  | none =>
      refine ⟨rfl, ?_⟩
      intro error failed
      cases failed

/-- A write at 4 is refused after a write at 5, and the history keeps the value of 5. -/
theorem History.write_atomic_before_latest :
    let history := History.empty.writeAll (openedWrites ++ [.modify 5 1 (.text "busy")])
    history.Reachable ∧
      (history.write (.modify 4 1 .null)).result = .error (.timeBeforeLatest 4 5) ∧
      (history.write (.modify 4 1 .null)).state = history := by
  have reachable := History.reachable_writeAll (openedWrites ++ [.modify 5 1 (.text "busy")])
  obtain ⟨exactly, kept⟩ := History.write_atomic reachable (.modify 4 1 .null)
  have refused : ((History.empty.writeAll (openedWrites ++ [.modify 5 1 (.text "busy")])).write
      (.modify 4 1 .null)).result = .error (.timeBeforeLatest 4 5) := by
    rw [exactly]
    decide
  exact ⟨reachable, refused, (kept _ refused).1⟩

end Chronicle
