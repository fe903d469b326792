import Chronicle.Proofs.AbortedReplays

/-!
A replay to which events are offered one by one, and which goes on after a refused one: which events
it accepts, for what fault it refuses the others, and how it counts those it accepted. All of it is
told by the accepted events alone.
-/

namespace Chronicle

/-- A replay after events that are offered to it one by one. -/
def Replay.applyAll (replay : Replay) : List Event → Replay
  | [] => replay
  | event :: rest => (replay.apply event).state.applyAll rest

/-- The events that a replay accepts among those that are offered to it one by one. -/
def Replay.accepted (replay : Replay) : List Event → List Event
  | [] => []
  | event :: rest =>
      let others := (replay.apply event).state.accepted rest
      match (replay.apply event).result with
      | .ok () => event :: others
      | .error _ => others

/-- After the earlier events an event amends a path that is open. -/
def Event.amendsOpen (separator : Char) (earlier : List Event) (event : Event) : Bool :=
  event.operation = .amend && opened separator (event.address.resolve separator) earlier

/-- After the earlier events an event amends a path that is not open. -/
def Event.amendsIdle (separator : Char) (earlier : List Event) (event : Event) : Bool :=
  event.operation = .amend && !opened separator (event.address.resolve separator) earlier

/-- How many events of a stream pass a test when it continues the earlier events, where the test of
an event also reads those before it. -/
def tallyAfter (test : List Event → Event → Bool) (earlier : List Event) : List Event → Nat
  | [] => 0
  | event :: rest =>
      (if test earlier event then 1 else 0) + tallyAfter test (earlier ++ [event]) rest

/-- How many events of a stream pass a test that also reads those before them. -/
def tally (test : List Event → Event → Bool) (events : List Event) : Nat :=
  tallyAfter test [] events

/-- The counters of a stream: its modifications, its amendments of open paths and its amendments of
the others. What is only known at the end is not counted yet. -/
def countersOf (separator : Char) (events : List Event) : Counters :=
  { Counters.zero with
    events := events.length
    modifications := (modifications events).length
    updates := tally (Event.amendsOpen separator) events
    ignoredUpdates := tally (Event.amendsIdle separator) events }

section Tally

variable {test : List Event → Event → Bool} {separator : Char}

theorem tallyAfter_append_singleton (earlier events : List Event) (event : Event) :
    tallyAfter test earlier (events ++ [event]) =
      tallyAfter test earlier events + if test (earlier ++ events) event then 1 else 0 := by
  induction events generalizing earlier with
  | nil => simp [tallyAfter]
  | cons first rest ih => simp [tallyAfter, ih, Nat.add_assoc]

/-- A further event counts when it passes the test after all the others. -/
theorem tally_append_singleton (events : List Event) (event : Event) :
    tally test (events ++ [event]) =
      tally test events + if test events event then 1 else 0 :=
  tallyAfter_append_singleton [] events event

/-- A modification is counted as one. -/
theorem countersOf_modified {events : List Event} {event : Event}
    (modify : event.operation = .modify) :
    countersOf separator (events ++ [event]) = (countersOf separator events).modified := by
  simp [countersOf, Counters.modified, modifications, tally_append_singleton, Event.amendsOpen,
    Event.amendsIdle, modify]

/-- An amendment of an open path is counted as an update. -/
theorem countersOf_updated {events : List Event} {event : Event}
    (amend : event.operation = .amend)
    (held : opened separator (event.address.resolve separator) events = true) :
    countersOf separator (events ++ [event]) = (countersOf separator events).updated := by
  simp [countersOf, Counters.updated, modifications, tally_append_singleton, Event.amendsOpen,
    Event.amendsIdle, amend, held]

/-- An amendment of a path that is not open is counted as ignored. -/
theorem countersOf_ignored {events : List Event} {event : Event}
    (amend : event.operation = .amend)
    (idle : opened separator (event.address.resolve separator) events = false) :
    countersOf separator (events ++ [event]) = (countersOf separator events).ignored := by
  simp [countersOf, Counters.ignored, modifications, tally_append_singleton, Event.amendsOpen,
    Event.amendsIdle, amend, idle]

/-- Every event of a stream is counted once. -/
theorem countersOf_total (events : List Event) :
    (countersOf separator events).events = (countersOf separator events).modifications +
      (countersOf separator events).updates + (countersOf separator events).ignoredUpdates := by
  induction events using List.reverseRecOn with
  | nil => rfl
  | append_singleton events event ih =>
      cases operation : event.operation with
      | modify =>
          simp only [countersOf_modified operation, Counters.modified, ih]
          omega
      | amend =>
          cases held : opened separator (event.address.resolve separator) events with
          | true =>
              simp only [countersOf_updated operation held, Counters.updated, ih]
              omega
          | false =>
              simp only [countersOf_ignored operation held, Counters.ignored, ih]
              omega

end Tally

/-- A replay has played the events that it accepted, and its counters are theirs. -/
structure Replay.Tallied (replay : Replay) (accepted : List Event) : Prop where
  played : replay.Played accepted
  counters : replay.counters = countersOf replay.config.separator accepted

section Tallied

variable {replay : Replay} {accepted : List Event} {event : Event}

theorem Replay.tallied_start (config : Config) : (Replay.start config).Tallied [] where
  played := Replay.played_start config
  counters := rfl

/-- An event that is absorbed counts by whether its path was open. -/
theorem Replay.Played.counters_absorbed (played : replay.Played accepted) {quark : Quark}
    {after : Replay} (effect : replay.Absorbs event quark after)
    (target : replay.history.tree.find none (event.address.resolve replay.config.separator) =
      some quark)
    (counted : replay.counters = countersOf replay.config.separator accepted) :
    after.counters = countersOf replay.config.separator (accepted ++ [event]) := by
  have held := played.ongoing_iff target
  cases effect with
  | modified modify granted =>
      rw [countersOf_modified modify, ← counted]
      rfl
  | updated amend granted =>
      rw [countersOf_updated amend (held.mp (Write.ongoing_of_granted granted)), ← counted]
      rfl
  | ignored amend idle tolerant =>
      rw [idle] at held
      have closed : opened replay.config.separator
          (event.address.resolve replay.config.separator) accepted = false := by
        simpa using held
      rw [countersOf_ignored amend closed, ← counted]
      rfl

/-- An accepted event is counted after the others. -/
theorem Replay.Tallied.extend (tallied : replay.Tallied accepted)
    (applied : (replay.apply event).result = .ok ()) :
    (replay.apply event).state.config = replay.config ∧
      (replay.apply event).state.Tallied (accepted ++ [event]) := by
  obtain ⟨kept, next⟩ := tallied.played.extend applied
  obtain ⟨quark, grown, linked, grows, target, effect⟩ :=
    Replay.apply_accepted tallied.played.follows.sound applied
  have found := tallied.played.withTree linked grows
  refine ⟨kept, next, ?_⟩
  rw [kept]
  exact found.counters_absorbed effect target tallied.counters

/-- A refused event is neither played nor counted. -/
theorem Replay.Tallied.refused (tallied : replay.Tallied accepted) {error : HistoryError}
    (refused : (replay.apply event).result = .error error) :
    (replay.apply event).state.config = replay.config ∧
      (replay.apply event).state.Tallied accepted := by
  obtain ⟨grown, state, linked, grows, _⟩ := tallied.played.refused refused
  rw [state]
  exact ⟨rfl, tallied.played.withTree linked grows, tallied.counters⟩

/-- Whatever is offered to a replay, it has played and counted what it accepted. -/
theorem Replay.Tallied.applyAll (tallied : replay.Tallied accepted) (events : List Event) :
    (replay.applyAll events).config = replay.config ∧
      (replay.applyAll events).Tallied (accepted ++ replay.accepted events) := by
  induction events generalizing replay accepted with
  | nil => exact ⟨rfl, by simpa [Replay.applyAll, Replay.accepted] using tallied⟩
  | cons event rest ih =>
      rw [Replay.applyAll, Replay.accepted]
      cases result : (replay.apply event).result with
      | ok done =>
          obtain ⟨kept, next⟩ := tallied.extend result
          obtain ⟨same, last⟩ := ih next
          rw [List.append_assoc] at last
          exact ⟨same.trans kept, last⟩
      | error error =>
          -- The list of the accepted events stays, and the invariant with it.
          obtain ⟨kept, next⟩ := tallied.refused result
          obtain ⟨same, last⟩ := ih next
          exact ⟨same.trans kept, last⟩

end Tallied

/-- Whatever was offered to a replay, its latest time is that of the last effective event among
those it accepted, it refuses the next event exactly for the fault of that event after them, and it
has counted each of them once: the modifications, the amendments of paths that were modified before, and
the amendments of others. -/
theorem Replay.verdicts_and_counts (config : Config) (events : List Event) :
    let replay := (Replay.start config).applyAll events
    let accepted := (Replay.start config).accepted events
    replay.history.latestTime = (effects config.separator accepted).getLast?.map Event.time ∧
      (∀ event, ∃ quark,
        (event.address.resolve config.separator ≠ [] →
          (replay.apply event).state.history.tree.find none
            (event.address.resolve config.separator) = some quark) ∧
        (replay.apply event).result =
          match event.fault config accepted quark with
          | some error => .error error
          | none => .ok ()) ∧
      replay.counters.modifications = (modifications accepted).length ∧
      replay.counters.updates = tally (Event.amendsOpen config.separator) accepted ∧
      replay.counters.ignoredUpdates = tally (Event.amendsIdle config.separator) accepted ∧
      replay.counters.events = replay.counters.modifications + replay.counters.updates +
        replay.counters.ignoredUpdates := by
  intro replay accepted
  obtain ⟨kept, tallied⟩ := (Replay.tallied_start config).applyAll events
  have same : replay.config = config := kept
  have played : replay.Played accepted := tallied.played
  have counted : replay.counters = countersOf config.separator accepted := by
    rw [← same]
    exact tallied.counters
  refine ⟨?_, fun event => ?_, ?_⟩
  · rw [← same]
    exact played.latest
  · rw [← same]
    exact played.apply_result event
  · rw [counted]
    exact ⟨rfl, rfl, rfl, countersOf_total accepted⟩

end Chronicle
