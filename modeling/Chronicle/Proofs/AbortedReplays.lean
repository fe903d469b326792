import Chronicle.Proofs.Acceptance

/-!
A replay that stops at a refused event is the replay of the events before it, apart from the
attributes on the path of that event. These never influence how the replay is finished.
-/

namespace Chronicle

/-- A replay over another tree. -/
def Replay.withTree (replay : Replay) (tree : Tree) : Replay :=
  replay.withHistory (replay.history.withTree tree)

/-- Closing takes no notice of the tree. -/
theorem History.close_withTree (history : History) (tree : Tree) (stop : Time) :
    (history.withTree tree).close stop =
      (history.close stop).within fun closed => closed.withTree tree := by
  have fault : (history.withTree tree).writeFault stop = history.writeFault stop := rfl
  have store : (history.withTree tree).store = history.store := rfl
  simp only [History.close, fault, store]
  cases history.writeFault stop with
  | some error => rfl
  | none =>
      unfold Attempt.andThen Attempt.within
      cases (history.store.closeAll stop history.store.allOngoing).result <;> rfl

/-- Finishing over another tree counts the attributes of that tree, and does the same otherwise. -/
theorem Replay.finish_withTree (replay : Replay) (tree : Tree) (stop : Option Time) :
    ((replay.withTree tree).finish stop).result =
        (replay.finish stop).result.map (fun counters => { counters with quarks := tree.size }) ∧
      ((replay.withTree tree).finish stop).state.history =
        (replay.finish stop).state.history.withTree tree := by
  have time : (replay.withTree tree).endTime stop = replay.endTime stop := rfl
  have closing : (replay.withTree tree).history.close (replay.endTime stop) = _ :=
    replay.history.close_withTree tree (replay.endTime stop)
  simp only [Replay.finish, time, closing]
  unfold Attempt.andThen
  simp only [Attempt.result_within]
  cases (replay.history.close (replay.endTime stop)).result <;> exact ⟨rfl, rfl⟩

/-- A refused event changes the tree at most, which then knows the beginnings of its path besides
what it knew. -/
theorem Replay.Played.refused {replay : Replay} {events : List Event} {event : Event}
    {error : HistoryError} (played : replay.Played events)
    (refused : (replay.apply event).result = .error error) :
    ∃ grown, (replay.apply event).state = replay.withTree grown ∧ grown.Linked ∧
      replay.history.tree.Grows grown ∧
      ∀ path, grown.Knows path ↔ replay.history.tree.Knows path ∨
        (path ≠ [] ∧ path <+: event.address.resolve replay.config.separator) := by
  have named := Write.resolve_fault played.follows.running
    (event.address.resolve replay.config.separator)
  rcases Replay.apply_cases played.follows.sound event with
    ⟨reason, fault, failed⟩ | ⟨_, quark, grown, done, linked, grows, _, settled⟩
  · -- the path is empty, so it has no beginnings
    have empty : event.address.resolve replay.config.separator = [] := by
      by_contra nonempty
      rw [named, if_neg nonempty] at fault
      cases fault
    refine ⟨replay.history.tree, by rw [failed]; rfl, played.follows.sound.linked,
      Tree.Grows.refl _, fun path => ?_⟩
    rw [empty, List.prefix_nil]
    simp
  · rw [settled] at refused ⊢
    exact ⟨grown, Replay.settle_refused refused, linked, grows,
      fun path => History.resolve_knows played.follows.sound done⟩

/-- A replay that stops accepts all events up to one that it refuses, and it leaves what that one
leaves. -/
theorem Replay.run_refused {replay : Replay} {events : List Event} {error : HistoryError}
    (refused : (replay.run events).result = .error error) :
    ∃ before event after, events = before ++ event :: after ∧
      (replay.run before).result = .ok () ∧
      ((replay.run before).state.apply event).result = .error error ∧
      (replay.run events).state = ((replay.run before).state.apply event).state := by
  induction events generalizing replay with
  | nil => cases refused
  | cons first rest ih =>
      rw [Replay.run, Attempt.andThen] at refused ⊢
      cases applied : (replay.apply first).result with
      | error reason =>
          rw [applied] at refused
          obtain rfl : reason = error := Except.error.inj refused
          exact ⟨[], first, rest, rfl, rfl, applied, rfl⟩
      | ok done =>
          simp only [applied] at refused ⊢
          obtain ⟨before, event, after, split, accepted, stopped, left⟩ := ih refused
          have step : replay.run (first :: before) = (replay.apply first).state.run before :=
            Replay.run_cons_of_applied applied
          refine ⟨first :: before, event, after, by rw [split, List.cons_append], ?_, ?_, ?_⟩
          · rw [step, accepted]
          · rw [step, stopped]
          · rw [step, left]

/-- Where a replay is refused, it stops at one event and is the replay of those before it, apart from
its tree. The tree keeps all its attributes and knows besides them the beginnings of the path of
that event. Whatever the end, finishing succeeds as it does after the events before, with the same
intervals, the same end and, apart from the number of attributes, the same counters. -/
theorem Replay.aborted_keeps_prefix {config : Config} {events : List Event} {error : HistoryError}
    (refused : ((Replay.start config).run events).result = .error error) :
    ∃ before event after, events = before ++ event :: after ∧
      let former := (Replay.start config).run before
      let aborted := ((Replay.start config).run events).state
      former.result = .ok () ∧ (former.state.apply event).result = .error error ∧
      aborted = former.state.withTree aborted.history.tree ∧
      (former.state.history.tree.Grows aborted.history.tree ∧
        (∀ path quark, former.state.history.tree.find none path = some quark →
          aborted.history.tree.find none path = some quark) ∧
        ∀ path, aborted.history.tree.Knows path ↔ former.state.history.tree.Knows path ∨
          (path ≠ [] ∧ path <+: event.address.resolve config.separator)) ∧
      ∀ stop,
        (aborted.finish stop).result = (former.state.finish stop).result.map
            (fun counters => { counters with quarks := aborted.history.tree.size }) ∧
          (aborted.finish stop).state.history =
            (former.state.finish stop).state.history.withTree aborted.history.tree := by
  obtain ⟨before, event, after, split, accepted, stopped, left⟩ := Replay.run_refused refused
  refine ⟨before, event, after, split, ?_⟩
  intro former aborted
  obtain ⟨kept, played⟩ := (Replay.played_start config).run accepted
  obtain ⟨grown, state, linked, grows, knows⟩ := played.refused stopped
  have same : aborted = former.state.withTree grown := left.trans state
  have separator : former.state.config.separator = config.separator :=
    congrArg Config.separator kept
  rw [separator] at knows
  rw [same]
  exact ⟨accepted, stopped, rfl,
    ⟨grows, fun path quark found => grows.find played.follows.sound.linked linked found, knows⟩,
    former.state.finish_withTree grown⟩

/-- The second event is late, and its path is new. -/
def lateEvents : List Event :=
  [⟨5, .joined "disk/status", .modify, .text "idle"⟩, ⟨3, .joined "load/cpu", .modify, .long 1⟩,
    ⟨7, .joined "disk/status", .modify, .text "busy"⟩]

/-- The replay stops at the late event, whose path stays behind; the status of the disk ends at 9 as it
does without that event. -/
theorem Replay.aborted_keeps_prefix_of_late :
    let aborted := ((Replay.start .default).run lateEvents).state
    let former := ((Replay.start .default).run (lateEvents.take 1)).state
    ((Replay.start .default).run lateEvents).result = .error (.timeBeforeLatest 3 5) ∧
      (∃ before event after, lateEvents = before ++ event :: after ∧
        (((Replay.start .default).run before).state.apply event).result =
          .error (.timeBeforeLatest 3 5) ∧
        aborted = ((Replay.start .default).run before).state.withTree aborted.history.tree) ∧
      former.history.tree.size = 2 ∧ aborted.history.tree.size = 4 ∧
      aborted.history.store = former.history.store ∧ aborted.counters = former.counters ∧
      (aborted.finish (some 9)).result = .ok ⟨1, 1, 0, 0, 4, 1, some 9⟩ := by
  intro aborted former
  have refused : ((Replay.start .default).run lateEvents).result =
      .error (.timeBeforeLatest 3 5) := by
    decide +kernel
  obtain ⟨before, event, after, split, _, stopped, same, _⟩ := Replay.aborted_keeps_prefix refused
  exact ⟨refused, ⟨before, event, after, split, stopped, same⟩, by decide +kernel,
    by decide +kernel, by decide +kernel, by decide +kernel, by decide +kernel⟩

end Chronicle
