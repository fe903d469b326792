import Chronicle.History.Query
import Chronicle.Proofs.ReachableHistories
import Chronicle.Proofs.TileValues

/-!
The meaning of a session of writes: what the accepted writes say about one quark is a plain function
of time, and the history answers every question about a time by this function.
-/

namespace Chronicle

/-- A trace gives the value of one quark at every time, and the time of its latest modification. -/
structure Trace where
  value : Time → Value
  since : Option Time

/-- Before any write the quark has no value and no modification. -/
def Trace.blank : Trace := ⟨fun _ => .null, none⟩

/-- The value holds from the given time on. -/
def Trace.overwrite (trace : Trace) (since : Time) (value : Value) : Trace :=
  { trace with value := fun time => if since ≤ time then value else trace.value time }

/-- An amendment overwrites from the latest modification on. -/
def Trace.amend (trace : Trace) (value : Value) : Trace :=
  match trace.since with
  | some since => trace.overwrite since value
  | none => trace

/-- An accepted write changes the trace of a quark when it is about this quark, and closing changes
every trace. -/
def Trace.absorb (quark : Quark) (trace : Trace) : Write → Trace
  | .resolve _ _ => trace
  | .modify time target value =>
      if target = quark then { trace.overwrite time value with since := some time } else trace
  | .amend target value => if target = quark then trace.amend value else trace
  | .amendAt _ target value => if target = quark then trace.amend value else trace
  | .close stop =>
      { trace with value := fun time => if stop < time then .null else trace.value time }

/-- A write about other quarks leaves a trace as it is. -/
theorem Trace.absorb_frame {trace : Trace} {quark : Quark} {write : Write}
    (apart : write.concerns quark = false) : trace.absorb quark write = trace := by
  cases write with
  | resolve parent path => rfl
  | close stop => cases apart
  | _ => exact if_neg (by simpa [Write.concerns] using apart)

/-- The trace that a list of accepted writes leaves. -/
def Trace.after (quark : Quark) (writes : List Write) : Trace :=
  writes.foldl (Trace.absorb quark) .blank

/-- The writes of a session that are accepted one after the other. -/
def History.accepted (history : History) : List Write → List Write
  | [] => []
  | write :: rest =>
      match (history.write write).result with
      | .ok () => write :: (history.write write).state.accepted rest
      | .error _ => (history.write write).state.accepted rest

/-- The write amends the quark. -/
def Write.amends (quark : Quark) : Write → Bool
  | .amend target _ => target = quark
  | .amendAt _ target _ => target = quark
  | _ => false

/-- The trace gives the values of the quark, and while the history is open, the start of its ongoing
interval. -/
structure Trace.Denotes (trace : Trace) (history : History) (quark : Quark) : Prop where
  value : ∀ time, history.store.valueAt quark time = trace.value time
  since : history.closed = false →
    trace.since = (history.store.ongoingOf quark).map Ongoing.start

section Step

variable {history : History} {trace : Trace} {quark : Quark}

/-- A write that leaves the intervals of the quark alone keeps what its trace denotes. -/
theorem Trace.Denotes.frame {next : History} (denotes : trace.Denotes history quark)
    (intervals : next.store.intervalsOf quark = history.store.intervalsOf quark)
    (ongoing : next.store.ongoingOf quark = history.store.ongoingOf quark)
    (closed : next.closed = history.closed) : trace.Denotes next quark where
  value time := by rw [Store.valueAt_congr intervals ongoing, denotes.value]
  since running := by
    rw [ongoing]
    exact denotes.since (closed ▸ running)

/-- Recording a value at a time changes the values from this time on, and no earlier ones. -/
theorem Trace.Denotes.modified (sound : history.Sound) (denotes : trace.Denotes history quark)
    {time : Time} {value : Value}
    (granted : (Write.modify time quark value).fault history = none) :
    ({ trace.overwrite time value with since := some time } : Trace).Denotes
      (history.written (.modify time quark value)) quark := by
  have after := sound.modified granted
  simp only [Write.fault, Option.or_eq_none_iff] at granted
  obtain ⟨⟨open?, order⟩, _⟩ := granted
  have current := sound.tiled.current (History.closed_of_closedFault open?) order quark
  have level := sound.tiled.level
  have state : (history.written (.modify time quark value)).store.ongoingOf quark =
      some ⟨time, value⟩ := by
    simp [History.written, History.advance, History.withStore, Store.ongoingOf_recorded level]
  have row : (history.written (.modify time quark value)).store.intervalsOf quark =
      history.store.intervalsOf quark ++ (history.store.cut quark time).toList := by
    simp [History.written, History.advance, History.withStore, Store.intervalsOf_recorded level]
  constructor
  · intro moment
    have tiling := sound.tiled.tiling quark
    rw [Store.valueAt_eq (after.tiled.tiling quark).ascends, state, row]
    simp only [Trace.overwrite]
    by_cases reached : time ≤ moment
    · rw [if_pos reached, if_pos reached]
    · have earlier : moment ≤ time - 1 := by lia
      rw [if_neg reached, if_neg reached, ← denotes.value, Store.valueAt_timeline tiling earlier,
        Store.timeline]
      unfold Store.cut
      cases held : history.store.ongoingOf quark with
      | none => rfl
      | some ongoing =>
          by_cases same : ongoing.start = time
          · -- an interval that only starts at the time covers nothing before it
            simp only [same, if_true, Option.toList_none, List.append_nil, Option.map_some,
              Option.toList_some]
            rw [scanned_append_singleton]
            · simp [Interval.contains, Ongoing.close, same, reached]
            · intro started
              exact absurd (same ▸ started) reached
          · simp only [same, if_false, Option.map_some]
  · intro _
    rw [state]
    rfl

/-- Another value of the ongoing interval changes the values from its start on. -/
theorem Trace.Denotes.revalued (sound : history.Sound) (denotes : trace.Denotes history quark)
    (running : history.closed = false) {value : Value}
    (ongoing : history.idleFault quark = none) :
    (trace.amend value).Denotes (history.withStore (history.store.revalued quark value)) quark := by
  obtain ⟨state, held⟩ : ∃ state, history.store.ongoingOf quark = some state := by
    apply Option.ne_none_iff_exists'.mp
    simpa [History.idleFault] using ongoing
  have since : trace.since = some state.start := by
    rw [denotes.since running, held]
    rfl
  have ascends := (sound.tiled.tiling quark).ascends
  constructor
  · intro moment
    have before := denotes.value moment
    rw [Store.valueAt_eq ascends, held] at before
    rw [Store.valueAt_eq (by simpa [History.withStore] using ascends), Trace.amend, since]
    simp only [History.withStore, Store.ongoingOf_revalued, if_true, held, Option.map_some,
      Store.intervalsOf_revalued, Trace.overwrite]
    by_cases started : state.start ≤ moment
    · simp [started]
    · simpa [started] using before
  · intro _
    simp only [Trace.amend, since, History.withStore, Store.ongoingOf_revalued, if_true, held]
    exact since

/-- Closing the history keeps the values up to its end and leaves none after it. -/
theorem Trace.Denotes.sealed (sound : history.Sound) (denotes : trace.Denotes history quark)
    {stop : Time} (granted : (Write.close stop).fault history = none) :
    (trace.absorb quark (.close stop)).Denotes (history.written (.close stop)) quark := by
  simp only [Write.fault, Option.or_eq_none_iff] at granted
  have running := History.closed_of_closedFault granted.1
  have after := sound.sealed running granted.2
  have state : (history.written (.close stop)).store.ongoingOf quark = none :=
    history.store.ongoingOf_sealed quark
  have row : (history.written (.close stop)).store.intervalsOf quark =
      history.store.timeline quark stop :=
    history.store.intervalsOf_sealed sound.tiled.level quark
  constructor
  · intro moment
    rw [Store.valueAt_eq (after.tiled.tiling quark).ascends, state]
    simp only [Trace.absorb]
    by_cases late : stop < moment
    · rw [if_pos late]
      apply scanned_of_stop_lt
      intro interval member
      have order : (history.written (.close stop)).orderFault stop = none := by
        simp [History.orderFault, History.written, History.advance]
      obtain ⟨_, bounded⟩ := after.tiled.bounded order
      exact lt_of_le_of_lt ((bounded quark).closed interval member).2.2 late
    · rw [if_neg late, row, ← denotes.value,
        Store.valueAt_timeline (sound.tiled.tiling quark) (Nat.le_of_not_lt late)]
  · intro open?
    simp [History.written] at open?

/-- One write changes what a trace denotes exactly when it is accepted. -/
theorem Trace.Denotes.write (sound : history.Sound) (denotes : trace.Denotes history quark)
    (write : Write) :
    (match (history.write write).result with
      | .ok () => trace.absorb quark write
      | .error _ => trace).Denotes (history.write write).state quark := by
  rw [sound.write_eq write]
  cases granted : write.fault history with
  | some error => exact denotes
  | none =>
      simp only [Attempt.result_done, Attempt.state_done]
      cases concerned : write.concerns quark with
      | false =>
          obtain ⟨row, state, closed⟩ := sound.written_frame granted concerned
          rw [Trace.absorb_frame concerned]
          exact denotes.frame row state closed
      | true =>
          cases write with
          | resolve parent path => cases concerned
          | modify time target value =>
              obtain rfl : target = quark := by simpa [Write.concerns] using concerned
              simpa [Trace.absorb] using denotes.modified sound granted
          | amend target value =>
              obtain rfl : target = quark := by simpa [Write.concerns] using concerned
              simp only [Write.fault, Option.or_eq_none_iff] at granted
              simp only [Trace.absorb, if_true]
              exact denotes.revalued sound (History.closed_of_closedFault granted.1) granted.2
          | amendAt time target value =>
              obtain rfl : target = quark := by simpa [Write.concerns] using concerned
              simp only [Write.fault, Option.or_eq_none_iff] at granted
              have revalued : (trace.amend value).Denotes
                  (history.withStore (history.store.revalued target value)) target :=
                denotes.revalued sound (History.closed_of_closedFault granted.1.1) granted.2
              simp only [Trace.absorb, if_true]
              exact revalued.frame rfl rfl rfl
          | close stop => exact denotes.sealed sound granted

/-- A whole session leaves the trace of its accepted writes. -/
theorem Trace.Denotes.session (sound : history.Sound) (denotes : trace.Denotes history quark)
    (writes : List Write) :
    ((history.accepted writes).foldl (Trace.absorb quark) trace).Denotes
      (history.writeAll writes) quark := by
  induction writes generalizing history trace with
  | nil => exact denotes
  | cons write rest ih =>
      have step := denotes.write sound write
      rw [History.writeAll, History.accepted]
      cases result : (history.write write).result with
      | ok answer =>
          rw [result] at step
          exact ih (sound.write write) step
      | error error =>
          rw [result] at step
          exact ih (sound.write write) step

end Step

theorem Trace.denotes_empty (quark : Quark) : Trace.blank.Denotes History.empty quark where
  value time := by
    rw [Store.valueAt_eq (History.sound_empty.tiled.tiling quark).ascends]
    rfl
  since _ := rfl

/-- An amendment is only accepted for a quark that is ongoing. -/
theorem Write.ongoing_of_amends {write : Write} {history : History} {quark : Quark}
    (amends : write.amends quark = true) (granted : write.fault history = none) :
    history.closed = false ∧ history.idleFault quark = none := by
  cases write with
  | amend target value =>
      simp only [Write.fault, Option.or_eq_none_iff] at granted
      have same : target = quark := by simpa [Write.amends] using amends
      exact ⟨History.closed_of_closedFault granted.1, same ▸ granted.2⟩
  | amendAt time target value =>
      simp only [Write.fault, Option.or_eq_none_iff] at granted
      have same : target = quark := by simpa [Write.amends] using amends
      exact ⟨History.closed_of_closedFault granted.1.1, same ▸ granted.2⟩
  | _ => cases amends

/-- After any session of writes, the value of an attribute at a time is the one that the accepted
writes give it, and an amendment is only accepted after a modification of its attribute. -/
theorem History.valueAt_session (writes : List Write) {quark : Quark}
    (issued : (History.empty.writeAll writes).tree.contains quark = true) :
    let history := History.empty.writeAll writes
    let trace := Trace.after quark (History.empty.accepted writes)
    (∀ time, history.valueAt quark time = .ok (trace.value time)) ∧
      ∀ write, write.amends quark = true → (history.write write).result = .ok () →
        trace.since.isSome = true := by
  have denotes := (Trace.denotes_empty quark).session History.sound_empty writes
  have sound := (History.reachable_writeAll writes).sound
  refine ⟨fun time => ?_, fun write amends accepted => ?_⟩
  · rw [History.valueAt, if_pos issued]
    exact congrArg Except.ok (denotes.value time)
  · rw [sound.write_eq write] at accepted
    cases granted : write.fault (History.empty.writeAll writes) with
    | some error => simp [granted] at accepted
    | none =>
        obtain ⟨running, ongoing⟩ := Write.ongoing_of_amends amends granted
        rw [Trace.after, denotes.since running]
        simpa [History.idleFault, Option.isSome_iff_ne_none] using ongoing

/-- The session modifies twice at 3, is refused at 2 and on an unknown quark, and closes at 9. -/
def diskWrites : List Write :=
  [.resolve none ["disk", "status"], .amend 1 .null, .modify 3 1 (.text "idle"),
    .modify 3 1 (.text "busy"), .modify 2 1 (.text "late"), .modify 4 7 .null,
    .modify 5 1 (.text "spinning"), .amendAt 6 1 (.text "calm"), .close 9, .modify 12 1 .null]

/-- At 4 the session left the second value of 3, and from 5 on the amendment of 6, until it closed. -/
theorem History.valueAt_session_of_disk :
    let history := History.empty.writeAll diskWrites
    history.tree.contains 1 = true ∧ history.valueAt 1 4 = .ok (.text "busy") ∧
      history.valueAt 1 5 = .ok (.text "calm") ∧ history.valueAt 1 10 = .ok .null := by
  intro history
  have issued : history.tree.contains 1 = true := by decide
  obtain ⟨values, _⟩ := History.valueAt_session diskWrites issued
  have read (time : Time) : history.valueAt 1 time =
      .ok ((Trace.after 1 (History.empty.accepted diskWrites)).value time) := values time
  refine ⟨issued, ?_, ?_, ?_⟩
  · rw [read]
    decide
  · rw [read]
    decide
  · rw [read]
    decide

end Chronicle
