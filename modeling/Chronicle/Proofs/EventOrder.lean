import Chronicle.Proofs.Acceptance

/-!
The order of time in a replayed stream: no event precedes an effective one before it, and a replay
that is finished without a time ends with its last effective event. An amendment that is ignored
leaves the clock alone, so the times of ignored events may fall.
-/

namespace Chronicle

/-- The time of the last effective event of a stream, or zero where it has none. -/
def lastEffect (separator : Char) (events : List Event) : Time :=
  ((effects separator events).getLast?.map Event.time).getD 0

/-- No effective event lies after the last one. -/
theorem Replay.Played.le_lastEffect {replay : Replay} {events : List Event}
    (played : replay.Played events) :
    ∀ other ∈ effects replay.config.separator events,
      other.time ≤ lastEffect replay.config.separator events := by
  apply (played.orderFault_iff _).mp
  rw [History.orderFault, lastEffect, played.latest]
  cases (effects replay.config.separator events).getLast? <;> simp

/-- Where the configuration tolerates no missing interval, every event of an accepted stream has an
effect. -/
theorem Replay.effects_of_strict {config : Config} {events : List Event}
    (strict : config.ignoreMissing = false)
    (accepted : ((Replay.start config).run events).result = .ok ()) :
    effects config.separator events = events := by
  have fits := ((Replay.played_start config).run_accepted_iff events).mp accepted
  apply effects_eq_self
  intro before event after split
  rcases (fits before event after split).tolerated with effective | tolerant
  · exact effective
  · change config.ignoreMissing = true at tolerant
    rw [strict] at tolerant
    cases tolerant

/-- In an accepted stream no event precedes an effective one before it, and without a given end the
replay finishes at the time of the last effective event. Every event is effective where the
configuration insists on it. -/
theorem Replay.order_of_effects {config : Config} {events : List Event}
    (accepted : ((Replay.start config).run events).result = .ok ()) :
    let finishing := ((Replay.start config).run events).state.finish none
    (∀ before event after, events = before ++ event :: after →
      ∀ earlier ∈ effects config.separator before, earlier.time ≤ event.time) ∧
    (config.ignoreMissing = false → effects config.separator events = events) ∧
    ∃ counters, finishing.result = .ok counters ∧
      counters.endTime = some (lastEffect config.separator events) ∧
      finishing.state.history.latestTime = some (lastEffect config.separator events) ∧
      finishing.state.history.closed = true := by
  intro finishing
  have blank := Replay.played_start config
  have fits := (blank.run_accepted_iff events).mp accepted
  obtain ⟨kept, played⟩ := blank.run accepted
  rw [List.nil_append] at played
  have separator : ((Replay.start config).run events).state.config.separator = config.separator :=
    congrArg Config.separator kept
  refine ⟨fun before event after split => (fits before event after split).ordered,
    fun strict => Replay.effects_of_strict strict accepted, ?_⟩
  -- without a given end the latest time is taken, and that is the time of the last effective event
  have ended : ((Replay.start config).run events).state.endTime none =
      lastEffect config.separator events := by
    rw [Replay.endTime, Option.none_or, played.latest, separator, lastEffect]
  have bound := played.le_lastEffect
  rw [separator] at bound
  obtain ⟨counters, finished⟩ := (played.finish_accepted_iff none).mpr (by
    rw [separator, ended]
    exact bound)
  obtain ⟨_, closed, counted⟩ := Replay.finish_accepted played.follows.sound finished
  refine ⟨counters, finished, ?_⟩
  simp only [finishing]
  rw [closed, counted, ended]
  exact ⟨rfl, rfl, rfl⟩

/-- The amendments at 9 and 8 find nothing to amend, and a modification at 7 comes between them. -/
def ignoringEvents : List Event :=
  [⟨5, .joined "disk", .modify, .text "idle"⟩, ⟨9, .joined "load", .amend, .long 1⟩,
    ⟨7, .joined "disk", .modify, .text "busy"⟩, ⟨8, .joined "load", .amend, .long 2⟩]

/-- The stream is accepted and finishes at 7, although its last event is later. -/
theorem Replay.order_of_effects_when_ignoring :
    let finishing := ((Replay.start .default).run ignoringEvents).state.finish none
    ((Replay.start .default).run ignoringEvents).result = .ok () ∧
      (effects '/' ignoringEvents).map Event.time = [5, 7] ∧
      finishing.state.history.latestTime = some 7 ∧ finishing.state.history.closed = true := by
  intro finishing
  have accepted : ((Replay.start .default).run ignoringEvents).result = .ok () := by
    decide +kernel
  have times : (effects '/' ignoringEvents).map Event.time = [5, 7] := by decide +kernel
  have last : lastEffect '/' ignoringEvents = 7 := by decide +kernel
  obtain ⟨_, _, _, _, _, latest, closed⟩ := Replay.order_of_effects accepted
  exact ⟨accepted, times, latest.trans (congrArg some last), closed⟩

/-- The times of an accepted stream need not ascend, and a replay of it need not end at the time of
its last event. -/
theorem Replay.disorder_of_ignored :
    ((Replay.start .default).run ignoringEvents).result = .ok () ∧
      ¬ (ignoringEvents.map Event.time).Pairwise (· ≤ ·) ∧
      (((Replay.start .default).run ignoringEvents).state.finish none).result =
        .ok ⟨4, 2, 0, 2, 2, 2, some 7⟩ ∧
      ignoringEvents.getLast?.map Event.time = some 8 := by
  refine ⟨?_, ?_, ?_, ?_⟩
  · decide +kernel
  · decide
  · decide +kernel
  · rfl

end Chronicle
