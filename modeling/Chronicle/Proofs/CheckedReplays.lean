import Chronicle.Proofs.CheckedCalls

/-!
Replays and lanes with checked writes. They access a history only through its writes, so that they do not
break off where the history is sound at first: every write that they make finds a sound history.
-/

namespace Chronicle

section Replays

variable {replay : Replay}

def Replay.checkedApply (replay : Replay) (event : Event) : Checked Replay Unit :=
  let segments := event.address.resolve replay.config.separator
  ((replay.history.checkedResolve none segments).within replay.withHistory).andThen
    fun quark found =>
      match event.operation with
      | .modify =>
          ((found.history.checkedModify event.time quark event.value).within
            found.withHistory).andThen
              fun _ written => some (.done () (written.count Counters.modified))
      | .amend => some (found.amend event quark)

def Replay.checkedRun (replay : Replay) : List Event → Checked Replay Unit
  | [] => some (.done () replay)
  | event :: rest => (replay.checkedApply event).andThen fun _ next => next.checkedRun rest

def Replay.checkedFinish (replay : Replay) (stop : Option Time) : Checked Replay Counters :=
  let time := replay.endTime stop
  ((replay.history.checkedClose time).within replay.withHistory).andThen fun _ closed =>
    let counters : Counters :=
      { closed.counters with
        quarks := closed.history.tree.size
        intervals := closed.history.store.closedCount
        endTime := some time }
    some (.done counters { closed with counters := counters })

theorem Replay.checkedApply_eq (sound : replay.history.Sound) (event : Event) :
    replay.checkedApply event = some (replay.apply event) := by
  let segments := event.address.resolve replay.config.separator
  have resolved : (replay.history.resolve none segments).state.Sound :=
    (replay.history.leads_resolve none segments).sound sound
  rw [Replay.checkedApply, sound.checkedResolve, Checked.within_some, Replay.apply]
  apply Checked.andThen_some
  intro quark
  cases event.operation with
  | modify =>
      dsimp only
      rw [Attempt.state_within, Replay.withHistory, resolved.checkedModify, Checked.within_some]
      exact Checked.andThen_some fun _ => rfl
  | amend => rfl

theorem Replay.checkedRun_eq (sound : replay.history.Sound) (events : List Event) :
    replay.checkedRun events = some (replay.run events) := by
  induction events generalizing replay with
  | nil => rfl
  | cons event rest ih =>
      have applied := (replay.apply_leads event).sound sound
      rw [Replay.checkedRun, Replay.checkedApply_eq sound, Replay.run]
      exact Checked.andThen_some fun _ => ih applied

theorem Replay.checkedFinish_eq (sound : replay.history.Sound) (stop : Option Time) :
    replay.checkedFinish stop = some (replay.finish stop) := by
  rw [Replay.checkedFinish, sound.checkedClose, Checked.within_some, Replay.finish]
  exact Checked.andThen_some fun _ => rfl

end Replays

section Lanes

def SlotWriting.checkedTarget (writing : SlotWriting) (slot : Quark) (name : String) :
    Checked SlotWriting Quark :=
  if name = "" then some (.done slot writing)
  else
    (writing.history.checkedResolve (some slot) [name]).within fun history =>
      { writing with history := history }

def SlotWriting.checkedRun (writing : SlotWriting) (slot : Quark) (time : Time) :
    List (String × Value) → Checked SlotWriting Unit
  | [] => some (.done () writing)
  | (name, value) :: rest =>
      (writing.checkedTarget slot name).andThen fun quark found =>
        ((found.history.checkedModify time quark value).within fun history =>
            { found with history := history }).andThen fun _ changed =>
          { changed with written := changed.written ++ [quark] }.checkedRun slot time rest

def Lanes.checkedWritePayload {Key : Type} (lanes : Lanes Key) (history : History) (slot : Nat)
    (time : Time) (payload : List (String × Value)) : Checked SlotWriting Unit :=
  ((history.checkedResolve (some lanes.parent) [lanes.slotName slot]).within fun resolved =>
      (⟨resolved, []⟩ : SlotWriting)).andThen fun quark writing =>
    writing.checkedRun quark time payload

/-- Clearing goes on where it is refused, but not where it breaks off. -/
def History.checkedClearAll (history : History) (time : Time) : List Quark → Option History
  | [] => some history
  | quark :: rest =>
      (history.checkedModify time quark .null).bind fun attempt =>
        attempt.state.checkedClearAll time rest

def History.checkedClear (history : History) (time : Time) : List Quark → Checked History Unit
  | [] => some (.done () history)
  | quark :: rest =>
      (history.checkedModify time quark .null).andThen fun _ cleared =>
        cleared.checkedClear time rest

def Lanes.checkedInsert {Key : Type} [DecidableEq Key] (lanes : Lanes Key) (history : History)
    (key : Key) (time : Time) (payload : List (String × Value)) :
    Checked (Lanes Key × History) Nat :=
  match lanes.laneOf key with
  | some lane =>
      (lanes.checkedWritePayload history lane.slot time payload).map fun attempt =>
        let noted := lanes.put key (lane.note attempt.state.written)
        match attempt.result with
        | .ok () => .done lane.slot (noted, attempt.state.history)
        | .error error => .fail error (noted, attempt.state.history)
  | none =>
      let (slot, granted) := lanes.allocate
      (granted.checkedWritePayload history slot time payload).bind fun attempt =>
        match attempt.result with
        | .ok () =>
            let lane := (⟨slot, []⟩ : Lane).note attempt.state.written
            some (.done slot (granted.put key lane, attempt.state.history))
        | .error error =>
            (attempt.state.history.checkedClearAll time attempt.state.written).map fun cleared =>
              .fail error (granted.release slot, cleared)

def Lanes.checkedRemove {Key : Type} [DecidableEq Key] (lanes : Lanes Key) (history : History)
    (key : Key) (time : Time) : Checked (Lanes Key × History) (Option Nat) :=
  match lanes.laneOf key with
  | none => some (.done none (lanes, history))
  | some lane =>
      ((history.checkedClear time lane.written).within fun cleared => (lanes, cleared)).andThen
        fun _ state => some (.done (some lane.slot) ((lanes.drop key).release lane.slot, state.2))

variable {history : History} {writing : SlotWriting} {Key : Type} {lanes : Lanes Key}

theorem SlotWriting.checkedTarget_eq (sound : writing.history.Sound) (slot : Quark)
    (name : String) : writing.checkedTarget slot name = some (writing.target slot name) := by
  unfold SlotWriting.checkedTarget SlotWriting.target
  split_ifs
  · rfl
  · rw [sound.checkedResolve, Checked.within_some]

theorem SlotWriting.checkedRun_eq (sound : writing.history.Sound) (slot : Quark) (time : Time)
    (payload : List (String × Value)) :
    writing.checkedRun slot time payload = some (writing.run slot time payload) := by
  induction payload generalizing writing with
  | nil => rfl
  | cons entry rest ih =>
      obtain ⟨name, value⟩ := entry
      have found := (writing.target_leads slot name).sound sound
      rw [SlotWriting.checkedRun, SlotWriting.checkedTarget_eq sound, SlotWriting.run]
      apply Checked.andThen_some
      intro quark
      have changed := (History.leads_modify _ time quark value).sound found
      rw [found.checkedModify, Checked.within_some]
      exact Checked.andThen_some fun _ => ih changed

theorem Lanes.checkedWritePayload_eq (sound : history.Sound) (slot : Nat) (time : Time)
    (payload : List (String × Value)) :
    lanes.checkedWritePayload history slot time payload =
      some (lanes.writePayload history slot time payload) := by
  have resolved := (history.leads_resolve (some lanes.parent) [lanes.slotName slot]).sound sound
  rw [Lanes.checkedWritePayload, sound.checkedResolve, Checked.within_some, Lanes.writePayload]
  exact Checked.andThen_some fun quark => SlotWriting.checkedRun_eq resolved quark time payload

theorem History.Sound.checkedClearAll (sound : history.Sound) (time : Time)
    (quarks : List Quark) :
    history.checkedClearAll time quarks = some (history.clearAll time quarks) := by
  induction quarks generalizing history with
  | nil => rfl
  | cons quark rest ih =>
      have cleared := (history.leads_modify time quark .null).sound sound
      rw [History.checkedClearAll, sound.checkedModify, Option.bind_some, ih cleared]
      rfl

theorem History.Sound.checkedClear (sound : history.Sound) (time : Time) (quarks : List Quark) :
    history.checkedClear time quarks = some (history.clear time quarks) := by
  induction quarks generalizing history with
  | nil => rfl
  | cons quark rest ih =>
      have cleared := (history.leads_modify time quark .null).sound sound
      rw [History.checkedClear, sound.checkedModify, History.clear]
      exact Checked.andThen_some fun _ => ih cleared

variable [DecidableEq Key]

theorem Lanes.checkedInsert_eq (sound : history.Sound) (key : Key) (time : Time)
    (payload : List (String × Value)) :
    lanes.checkedInsert history key time payload =
      some (lanes.insert history key time payload) := by
  unfold Lanes.checkedInsert Lanes.insert
  cases lanes.laneOf key with
  | some lane =>
      dsimp only
      rw [Lanes.checkedWritePayload_eq sound]
      generalize lanes.writePayload history lane.slot time payload = attempt
      obtain ⟨result, state⟩ := attempt
      cases result <;> rfl
  | none =>
      have written := (lanes.allocate.2.writePayload_leads history lanes.allocate.1 time
        payload).sound sound
      simp only [Lanes.checkedWritePayload_eq sound, Option.bind_some]
      cases (lanes.allocate.2.writePayload history lanes.allocate.1 time payload).result with
      | ok _ => rfl
      | error error => simp only [written.checkedClearAll, Option.map_some]

theorem Lanes.checkedRemove_eq (sound : history.Sound) (key : Key) (time : Time) :
    lanes.checkedRemove history key time = some (lanes.remove history key time) := by
  unfold Lanes.checkedRemove Lanes.remove
  cases lanes.laneOf key with
  | none => rfl
  | some lane =>
      dsimp only
      rw [sound.checkedClear, Checked.within_some]
      exact Checked.andThen_some fun _ => rfl

end Lanes

end Chronicle
