import Chronicle.History.Query
import Chronicle.Proofs.ReachableHistories

/-!
A closed history is frozen: every write is refused since the history is closed, no call changes it,
and a path resolves exactly where it is already there.
-/

namespace Chronicle

section Refused

variable {history : History}

theorem History.writeFault_closed (closed : history.closed = true) (time : Time) :
    history.writeFault time = some .closedHistory := by
  rw [History.writeFault, if_pos closed]

theorem History.modify_closed (closed : history.closed = true) (time : Time) (quark : Quark)
    (value : Value) : history.modify time quark value = .fail .closedHistory history := by
  rw [History.modify, History.writeFault_closed closed]

theorem History.amend_closed (closed : history.closed = true) (quark : Quark) (value : Value) :
    history.amend quark value = .fail .closedHistory history := by
  rw [History.amend, if_pos closed]

theorem History.amendAt_closed (closed : history.closed = true) (time : Time) (quark : Quark)
    (value : Value) : history.amendAt time quark value = .fail .closedHistory history := by
  rw [History.amendAt, History.writeFault_closed closed]

theorem History.close_closed (closed : history.closed = true) (stop : Time) :
    history.close stop = .fail .closedHistory history := by
  rw [History.close, History.writeFault_closed closed]

/-- A closed history resolves the paths that it has, and no other path. -/
theorem History.resolve_closed (closed : history.closed = true) (parent : Option Quark)
    (path : List String) :
    history.resolve parent path =
      match history.tree.find parent path with
      | some quark => .done quark history
      | none => .fail .closedHistory history := by
  rw [History.resolve]
  cases history.tree.find parent path with
  | some quark => rfl
  | none => rw [if_pos closed]

/-- No write changes a closed history. -/
theorem History.write_closed (closed : history.closed = true) (write : Write) :
    (history.write write).state = history := by
  cases write with
  | resolve parent path =>
      rw [History.write, Attempt.state_silent, History.resolve_closed closed]
      cases history.tree.find parent path <;> rfl
  | modify time quark value => rw [History.write, History.modify_closed closed]; rfl
  | amend quark value => rw [History.write, History.amend_closed closed]; rfl
  | amendAt time quark value => rw [History.write, History.amendAt_closed closed]; rfl
  | close stop => rw [History.write, History.close_closed closed]; rfl

/-- A closed history has no other continuation than itself. -/
theorem History.Continues.eq_of_closed {later : History} (path : history.Continues later)
    (closed : history.closed = true) : later = history := by
  let Kept (state : History) : Prop := state = history
  have step (before : History) (write : Write) (kept : Kept before) :
      Kept (before.write write).state := by
    change (before.write write).state = history
    rw [show before = history from kept]
    exact History.write_closed closed write
  exact path.keeps step (rfl : Kept history)

end Refused

/-- A replay of a closed history refuses every event, also one that it could have ignored. -/
theorem Replay.apply_closed {replay : Replay} (closed : replay.history.closed = true)
    (event : Event) : replay.apply event = .fail .closedHistory replay := by
  simp only [Replay.apply]
  rw [History.resolve_closed closed]
  cases replay.history.tree.find none (event.address.resolve replay.config.separator) with
  | none => rfl
  | some quark =>
      have found : (Attempt.done quark replay.history).within replay.withHistory =
          .done quark replay := rfl
      simp only
      rw [found, Attempt.andThen_done]
      cases event.operation with
      | modify =>
          simp only
          rw [History.modify_closed closed]
          rfl
      | amend =>
          simp only [Replay.amend]
          rw [History.amendAt_closed closed]
          rfl

section Lanes

variable {Key : Type} {history : History}

/-- Writing a payload to a closed history stops at its first entry. -/
theorem SlotWriting.run_closed {writing : SlotWriting} (closed : writing.history.closed = true)
    (slot : Quark) (time : Time) {payload : List (String × Value)} (nonempty : payload ≠ []) :
    (writing.run slot time payload).result = .error .closedHistory := by
  cases payload with
  | nil => exact absurd rfl nonempty
  | cons entry rest =>
      obtain ⟨name, value⟩ := entry
      have target : (∃ quark, writing.target slot name = .done quark writing) ∨
          writing.target slot name = .fail .closedHistory writing := by
        unfold SlotWriting.target
        split
        · exact Or.inl ⟨slot, rfl⟩
        · rw [History.resolve_closed closed]
          cases writing.history.tree.find (some slot) [name] with
          | some quark => exact Or.inl ⟨quark, rfl⟩
          | none => exact Or.inr rfl
      rcases target with ⟨quark, found⟩ | failed
      · rw [SlotWriting.run, found, Attempt.andThen_done, History.modify_closed closed]
        rfl
      · rw [SlotWriting.run, failed]
        rfl

theorem Lanes.writePayload_closed (lanes : Lanes Key) (closed : history.closed = true) (slot : Nat)
    (time : Time) {payload : List (String × Value)} (nonempty : payload ≠ []) :
    (lanes.writePayload history slot time payload).result = .error .closedHistory := by
  rw [Lanes.writePayload, History.resolve_closed closed]
  cases history.tree.find (some lanes.parent) [lanes.slotName slot] with
  | none => rfl
  | some quark =>
      change (SlotWriting.run ⟨history, []⟩ quark time payload).result = _
      exact SlotWriting.run_closed closed quark time nonempty

/-- No key, live or new, writes to a closed history. -/
theorem Lanes.insert_closed [DecidableEq Key] (lanes : Lanes Key) (closed : history.closed = true) (key : Key)
    (time : Time) {payload : List (String × Value)} (nonempty : payload ≠ []) :
    (lanes.insert history key time payload).result = .error .closedHistory := by
  unfold Lanes.insert
  split
  · simp only [lanes.writePayload_closed closed _ time nonempty, Attempt.result_fail]
  · simp only [lanes.allocate.2.writePayload_closed closed _ time nonempty, Attempt.result_fail]

/-- A key for which something was written cannot leave when the history is closed. -/
theorem Lanes.remove_closed [DecidableEq Key] (lanes : Lanes Key) (closed : history.closed = true) {key : Key}
    (time : Time) {lane : Lane} (live : lanes.laneOf key = some lane)
    (nonempty : lane.written ≠ []) :
    (lanes.remove history key time).result = .error .closedHistory := by
  simp only [Lanes.remove, live]
  cases written : lane.written with
  | nil => exact absurd written nonempty
  | cons quark rest =>
      rw [History.clear, History.modify_closed closed]
      rfl

end Lanes

/-- An accepted close leaves a closed history. -/
theorem History.closed_of_close {history : History} {stop : Time} {count : Nat}
    (closing : (history.close stop).result = .ok count) :
    (history.close stop).state.closed = true := by
  unfold History.close at *
  cases fault : history.writeFault stop with
  | some error => simp [fault] at closing
  | none =>
      simp only [fault] at closing ⊢
      obtain ⟨_, _, sealed⟩ := Attempt.andThen_accepted closing
      rw [sealed]
      rfl

/-- After an accepted close no call changes the history. Every write to it is refused since it is
closed, whether made directly, by a replay or through lanes, and a path resolves exactly when it is
already there, to the same attribute. -/
theorem History.frozen_after_close {history later : History} {stop : Time} {count : Nat}
    (closing : (history.close stop).result = .ok count)
    (path : (history.close stop).state.Continues later) :
    later = (history.close stop).state ∧ later.closed = true ∧
    ((∀ time quark value, later.modify time quark value = .fail .closedHistory later) ∧
      (∀ quark value, later.amend quark value = .fail .closedHistory later) ∧
      (∀ time quark value, later.amendAt time quark value = .fail .closedHistory later) ∧
      ∀ time, later.close time = .fail .closedHistory later) ∧
    ((∀ separator parent names, later.resolve parent names =
        match later.locate separator parent names with
        | .ok quark => .done quark later
        | .error _ => .fail .closedHistory later) ∧
      ∀ separator text, later.resolveText separator text =
        match later.lookup separator text with
        | some quark => .done quark later
        | none => .fail .closedHistory later) ∧
    (∀ (replay : Replay) event, replay.history = later →
      replay.apply event = .fail .closedHistory replay) ∧
    ∀ (Key : Type) [DecidableEq Key] (lanes : Lanes Key) (key : Key) (time : Time),
      (∀ payload, payload ≠ [] →
        (lanes.insert later key time payload).result = .error .closedHistory) ∧
      ∀ lane, lanes.laneOf key = some lane → lane.written ≠ [] →
        (lanes.remove later key time).result = .error .closedHistory := by
  have same : later = (history.close stop).state :=
    path.eq_of_closed (History.closed_of_close closing)
  have closed : later.closed = true := by
    rw [same]
    exact History.closed_of_close closing
  refine ⟨same, closed, ⟨?_, ?_, ?_, ?_⟩, ⟨?_, ?_⟩, ?_, ?_⟩
  · exact History.modify_closed closed
  · exact History.amend_closed closed
  · exact History.amendAt_closed closed
  · exact History.close_closed closed
  · intro separator parent names
    rw [History.resolve_closed closed, History.locate]
    cases later.tree.find parent names <;> rfl
  · intro separator text
    exact History.resolve_closed closed none (Path.split text separator)
  · rintro replay event rfl
    exact Replay.apply_closed closed event
  · intro Key _ lanes key time
    exact ⟨fun payload nonempty => lanes.insert_closed closed key time nonempty,
      fun lane live nonempty => lanes.remove_closed closed time live nonempty⟩

/-- The status of the disk was opened at 3 and is closed at 9. A write at 11 is refused afterwards;
the status still resolves, and the load of the disk, which is not there, does not. -/
theorem History.frozen_after_close_of_disk :
    let history := History.empty.writeAll openedWrites
    let later := ((history.close 9).state.write (.modify 11 1 .null)).state
    (history.close 9).result = .ok 1 ∧ (history.close 9).state.Continues later ∧
      later = (history.close 9).state ∧ later.closed = true ∧
      later.modify 12 1 (.text "late") = .fail .closedHistory later ∧
      later.resolve none ["disk", "status"] = .done 1 later ∧
      later.resolve none ["disk", "load"] = .fail .closedHistory later := by
  intro history later
  have closing : (history.close 9).result = .ok 1 := by decide
  have path : (history.close 9).state.Continues later :=
    History.continues_iff.mpr ⟨[.modify 11 1 .null], rfl⟩
  obtain ⟨same, closed, ⟨refused, _⟩, ⟨resolves, _⟩, _⟩ := History.frozen_after_close closing path
  have known : later.locate '/' none ["disk", "status"] = .ok 1 := by decide
  have missing : later.locate '/' none ["disk", "load"] = .error (.unknownPath "disk/load") := by
    decide
  refine ⟨closing, path, same, closed, refused 12 1 _, ?_, ?_⟩
  · rw [resolves '/', known]
  · rw [resolves '/', missing]

end Chronicle
