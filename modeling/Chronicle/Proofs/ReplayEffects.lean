import Chronicle.Proofs.SoundHistories

/-!
The effect of an accepted event on the sound history of a replay, and of finishing the replay.
-/

namespace Chronicle

/-- An amendment is refused for a missing ongoing interval only when there is none, and when nothing
else stands against it. -/
theorem Write.idle_of_fault {time : Time} {quark missing : Quark} {value : Value}
    {history : History}
    (refused : (Write.amendAt time quark value).fault history = some (.notOngoing missing)) :
    history.closedFault.or (history.orderFault time) = none ∧
      history.store.ongoingOf quark = none := by
  rw [Write.fault] at refused
  rcases Option.or_eq_some_iff.mp refused with early | ⟨granted, idle⟩
  · rcases Option.or_eq_some_iff.mp early with closed | ⟨_, order⟩
    · simp [History.closedFault] at closed
    · obtain ⟨latest, _, late⟩ := Option.bind_eq_some_iff.mp order
      simp at late
  · have both : history.store.ongoingOf quark = none ∧ quark = missing := by
      simpa [History.idleFault] using idle
    exact ⟨granted, both.1⟩

/-- An amendment is only accepted for a quark that is ongoing. -/
theorem Write.ongoing_of_granted {time : Time} {quark : Quark} {value : Value} {history : History}
    (granted : (Write.amendAt time quark value).fault history = none) :
    (history.store.ongoingOf quark).isSome = true := by
  simp only [Write.fault, Option.or_eq_none_iff] at granted
  simpa [History.idleFault, Option.isSome_iff_ne_none] using granted.2

/-- What becomes of an event in a replay in which its path has led to the quark. -/
def Replay.settle (found : Replay) (event : Event) (quark : Quark) : Attempt Replay Unit :=
  match event.operation with
  | .modify =>
      match (Write.modify event.time quark event.value).fault found.history with
      | some error => .fail error found
      | none => .done () ((found.withHistory
          (found.history.written (.modify event.time quark event.value))).count Counters.modified)
  | .amend =>
      match (Write.amendAt event.time quark event.value).fault found.history with
      | none => .done () ((found.withHistory
          (found.history.written (.amendAt event.time quark event.value))).count Counters.updated)
      | some (.notOngoing missing) =>
          if found.config.ignoreMissing then .done () (found.count Counters.ignored)
          else .fail (.notOngoing missing) found
      | some error => .fail error found

/-- What an accepted event makes of a replay in which its path has led to the quark. -/
inductive Replay.Absorbs (found : Replay) (event : Event) (quark : Quark) : Replay → Prop
  | modified (modify : event.operation = .modify)
      (granted : (Write.modify event.time quark event.value).fault found.history = none) :
      Absorbs found event quark ((found.withHistory
        (found.history.written (.modify event.time quark event.value))).count Counters.modified)
  | updated (amend : event.operation = .amend)
      (granted : (Write.amendAt event.time quark event.value).fault found.history = none) :
      Absorbs found event quark ((found.withHistory
        (found.history.written (.amendAt event.time quark event.value))).count Counters.updated)
  | ignored (amend : event.operation = .amend)
      (idle : found.history.store.ongoingOf quark = none)
      (tolerant : found.config.ignoreMissing = true) :
      Absorbs found event quark (found.count Counters.ignored)

theorem Replay.settle_absorbs {found : Replay} {event : Event} {quark : Quark}
    (accepted : (found.settle event quark).result = .ok ()) :
    found.Absorbs event quark (found.settle event quark).state := by
  unfold Replay.settle at *
  cases operation : event.operation with
  | modify =>
      cases granted : (Write.modify event.time quark event.value).fault found.history with
      | none => exact Absorbs.modified operation granted
      | some error => simp [operation, granted] at accepted
  | amend =>
      simp only [operation] at accepted ⊢
      cases granted : (Write.amendAt event.time quark event.value).fault found.history with
      | none => exact Absorbs.updated operation granted
      | some error =>
          rw [granted] at accepted
          cases error with
          | notOngoing missing =>
              cases tolerant : found.config.ignoreMissing with
              | true => exact Absorbs.ignored operation (Write.idle_of_fault granted).2 tolerant
              | false => simp [tolerant] at accepted
          | _ => cases accepted

/-- A refused event leaves the replay in which its path has led to the quark. -/
theorem Replay.settle_refused {found : Replay} {event : Event} {quark : Quark}
    {error : HistoryError} (refused : (found.settle event quark).result = .error error) :
    (found.settle event quark).state = found := by
  unfold Replay.settle at *
  cases operation : event.operation with
  | modify =>
      cases fault : (Write.modify event.time quark event.value).fault found.history with
      | none => simp [operation, fault] at refused
      | some reason => rfl
  | amend =>
      simp only [operation] at refused ⊢
      cases fault : (Write.amendAt event.time quark event.value).fault found.history with
      | none => simp [fault] at refused
      | some reason =>
          rw [fault] at refused
          cases reason with
          | notOngoing missing =>
              cases tolerant : found.config.ignoreMissing with
              | true => simp [tolerant] at refused
              | false => simp
          | _ => rfl

/-- What an accepted event makes of a sound history is sound, and its tree and its configuration are
the ones that were found. -/
theorem Replay.Absorbs.keeps {found after : Replay} {event : Event} {quark : Quark}
    (effect : found.Absorbs event quark after) (sound : found.history.Sound) :
    after.history.Sound ∧ after.history.tree = found.history.tree ∧ after.config = found.config := by
  cases effect with
  | modified modify granted => exact ⟨sound.written granted, rfl, rfl⟩
  | updated amend granted => exact ⟨sound.written granted, rfl, rfl⟩
  | ignored amend idle tolerant => exact ⟨sound, rfl, rfl⟩

/-- In a running history an event is refused out of the order of time, and then for want of an ongoing
interval, where it needs one and the configuration insists on it. -/
theorem Replay.settle_result {found : Replay} {event : Event} {quark : Quark}
    (running : found.history.closed = false) (inside : found.history.tree.contains quark = true) :
    (found.settle event quark).result =
      match (found.history.orderFault event.time).or
          (if event.operation = .modify ∨ (found.history.store.ongoingOf quark).isSome = true ∨
            found.config.ignoreMissing = true then none else some (.notOngoing quark)) with
      | some error => .error error
      | none => .ok () := by
  have open? : found.history.closedFault = none := by simp [History.closedFault, running]
  unfold Replay.settle
  cases operation : event.operation with
  | modify =>
      have known : found.history.quarkFault quark = none := by simp [History.quarkFault, inside]
      simp only [Write.fault, open?, known, Option.none_or, Option.or_none, true_or, if_true]
      cases found.history.orderFault event.time <;> rfl
  | amend =>
      simp only [Write.fault, open?, Option.none_or, reduceCtorEq, false_or]
      cases order : found.history.orderFault event.time with
      | some error =>
          obtain ⟨latest, _, late⟩ := Option.bind_eq_some_iff.mp order
          obtain ⟨_, rfl⟩ : event.time < latest ∧ .timeBeforeLatest event.time latest = error := by
            simpa using late
          simp
      | none =>
          cases held : found.history.store.ongoingOf quark with
          | some ongoing => simp [History.idleFault, held]
          | none =>
              cases tolerant : found.config.ignoreMissing <;>
                simp [History.idleFault, held]

/-- Whatever becomes of an event, the tree stays as it was found. -/
theorem Replay.settle_tree (found : Replay) (event : Event) (quark : Quark) :
    (found.settle event quark).state.history.tree = found.history.tree := by
  unfold Replay.settle
  cases event.operation with
  | modify =>
      cases (Write.modify event.time quark event.value).fault found.history <;> rfl
  | amend =>
      cases (Write.amendAt event.time quark event.value).fault found.history with
      | none => rfl
      | some error =>
          cases error with
          | notOngoing missing => cases tolerant : found.config.ignoreMissing <;> simp [Replay.count]
          | _ => rfl

theorem Replay.modify_settled {found : Replay} {event : Event} {quark : Quark}
    (sound : found.history.Sound) (modify : event.operation = .modify) :
    (((found.history.modify event.time quark event.value).within found.withHistory).andThen
      fun _ written => .done () (written.count Counters.modified)) = found.settle event quark := by
  have effect := sound.write_eq (.modify event.time quark event.value)
  rw [History.write] at effect
  rw [effect, Replay.settle, modify]
  cases (Write.modify event.time quark event.value).fault found.history <;> rfl

theorem Replay.amend_settled {found : Replay} {event : Event} {quark : Quark}
    (sound : found.history.Sound) (amend : event.operation = .amend) :
    found.amend event quark = found.settle event quark := by
  have effect := sound.write_eq (.amendAt event.time quark event.value)
  rw [History.write] at effect
  rw [Replay.amend, effect, Replay.settle, amend]
  cases (Write.amendAt event.time quark event.value).fault found.history with
  | none => rfl
  | some error => cases error <;> rfl

/-- Applying an event fails for its path and changes nothing, or it lets the tree grow by the path
and settles what becomes of the event at the quark there. -/
theorem Replay.apply_cases {replay : Replay} (sound : replay.history.Sound) (event : Event) :
    let segments := event.address.resolve replay.config.separator
    (∃ error, (Write.resolve none segments).fault replay.history = some error ∧
      replay.apply event = .fail error replay) ∨
    ((Write.resolve none segments).fault replay.history = none ∧ ∃ quark grown,
      replay.history.resolve none segments = .done quark (replay.history.withTree grown) ∧
      grown.Linked ∧ replay.history.tree.Grows grown ∧ grown.find none segments = some quark ∧
      replay.apply event =
        (replay.withHistory (replay.history.withTree grown)).settle event quark) := by
  intro segments
  rcases sound.resolve_cases none segments with
    ⟨error, fault, failed⟩ | ⟨fault, quark, grown, done, linked, grows, reached⟩
  · exact Or.inl ⟨error, fault, by simp only [Replay.apply]; rw [failed]; rfl⟩
  · refine Or.inr ⟨fault, quark, grown, done, linked, grows, reached, ?_⟩
    have after := sound.withTree linked grows
    have resolved : (Attempt.done quark (replay.history.withTree grown)).within
        replay.withHistory =
          .done quark (replay.withHistory (replay.history.withTree grown)) := rfl
    simp only [Replay.apply]
    rw [done, resolved, Attempt.andThen_done]
    cases operation : event.operation with
    | modify => exact Replay.modify_settled after operation
    | amend => exact Replay.amend_settled after operation

/-- An accepted event lets the tree grow by its path and then has one effect on the quark there. -/
theorem Replay.apply_accepted {replay : Replay} {event : Event} (sound : replay.history.Sound)
    (accepted : (replay.apply event).result = .ok ()) :
    ∃ quark grown, grown.Linked ∧ replay.history.tree.Grows grown ∧
      grown.find none (event.address.resolve replay.config.separator) = some quark ∧
      (replay.withHistory (replay.history.withTree grown)).Absorbs event quark
        (replay.apply event).state := by
  rcases Replay.apply_cases sound event with
    ⟨error, _, failed⟩ | ⟨_, quark, grown, _, linked, grows, reached, settled⟩
  · rw [failed] at accepted
    cases accepted
  · rw [settled] at accepted ⊢
    exact ⟨quark, grown, linked, grows, reached, Replay.settle_absorbs accepted⟩

/-- After an event that is accepted the others are applied. -/
theorem Replay.run_cons_of_applied {replay : Replay} {event : Event} {rest : List Event}
    (applied : (replay.apply event).result = .ok ()) :
    replay.run (event :: rest) = (replay.apply event).state.run rest := by
  rw [Replay.run, Attempt.andThen, applied]

/-- Finishing closes the history, and the counters tell its final size. -/
theorem Replay.finish_accepted {replay : Replay} {stop : Option Time} {counters : Counters}
    (sound : replay.history.Sound) (finished : (replay.finish stop).result = .ok counters) :
    let closing := Write.close (replay.endTime stop)
    let final := replay.history.written closing
    closing.fault replay.history = none ∧
      (replay.finish stop).state = ⟨replay.config, final, counters⟩ ∧
      counters = { replay.counters with
        quarks := final.tree.size
        intervals := final.store.closedCount
        endTime := some (replay.endTime stop) } := by
  intro closing final
  have effect := sound.write_eq closing
  obtain ⟨ended, closed, finishing⟩ := Attempt.andThen_accepted finished
  rw [Attempt.result_within] at closed
  have accepted : (replay.history.write closing).result = .ok () := by
    simp [closing, History.write, Attempt.silent, Attempt.andThen, closed]
  have granted : closing.fault replay.history = none := by
    rw [effect] at accepted
    cases fault : closing.fault replay.history with
    | none => rfl
    | some error => simp [fault] at accepted
  have state : (replay.history.close (replay.endTime stop)).state = final := by
    rw [← Attempt.state_silent]
    change (replay.history.write closing).state = final
    rw [effect, granted]
    rfl
  rw [Attempt.state_within, state] at finishing
  have answer : (replay.finish stop).result = _ := congrArg Attempt.result finishing
  rw [finished, Attempt.result_done, Except.ok.injEq] at answer
  refine ⟨granted, ?_, answer⟩
  rw [answer]
  exact congrArg Attempt.state finishing

end Chronicle
