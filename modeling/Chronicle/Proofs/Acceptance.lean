import Chronicle.Proofs.EffectiveEvents
import Chronicle.Proofs.PathCreation
import Chronicle.Proofs.Segmentation

/-!
Which streams a replay accepts, told by their events alone: a stream is accepted when every event in
it fits after those before it, and it can be finished at every time that no effective event exceeds.
-/

namespace Chronicle

/-- A replay has played a list of events when its history follows them and its latest time is that of
the last effective one. -/
structure Replay.Played (replay : Replay) (events : List Event) : Prop where
  follows : replay.history.Follows replay.config.separator events
  latest : replay.history.latestTime =
    (effects replay.config.separator events).getLast?.map Event.time
  ordered : (effects replay.config.separator events).Pairwise
    fun earlier later => earlier.time ≤ later.time

theorem Replay.played_start (config : Config) : (Replay.start config).Played [] where
  follows := History.follows_empty config.separator
  latest := rfl
  ordered := List.Pairwise.nil

section Played

variable {replay : Replay} {events : List Event} {event : Event}

/-- A time is in order when no effective event lies after it. -/
theorem Replay.Played.orderFault_iff (played : replay.Played events) (time : Time) :
    replay.history.orderFault time = none ↔
      ∀ other ∈ effects replay.config.separator events, other.time ≤ time := by
  rw [History.orderFault, played.latest, ← last_time_le_iff played.ordered, Option.bind_map,
    Option.bind_eq_none_iff]
  simp

/-- The attribute at a path has an ongoing interval when the path is open. -/
theorem Replay.Played.ongoing_iff (played : replay.Played events) {path : List String}
    {quark : Quark} (found : replay.history.tree.find none path = some quark) :
    (replay.history.store.ongoingOf quark).isSome = true ↔
      opened replay.config.separator path events = true := by
  rw [opened_iff, (played.follows.segmented path quark found).ongoing, Option.isSome_map,
    List.getLast?_isSome]

/-- A replay that has let its tree grow has played the same events. -/
theorem Replay.Played.withTree (played : replay.Played events) {grown : Tree}
    (linked : grown.Linked) (grows : replay.history.tree.Grows grown) :
    (replay.withHistory (replay.history.withTree grown)).Played events where
  follows := played.follows.withTree linked grows
  latest := played.latest
  ordered := played.ordered

/-- An amendment has an effect when it finds an ongoing interval. -/
theorem Replay.Played.effective_iff (played : replay.Played events) {quark : Quark}
    (target : replay.history.tree.find none (event.address.resolve replay.config.separator) =
      some quark) :
    event.effective replay.config.separator events = true ↔
      event.operation = .modify ∨ (replay.history.store.ongoingOf quark).isSome = true := by
  rw [Event.effective, Bool.or_eq_true, decide_eq_true_eq, played.ongoing_iff target]

/-- Once its path has led to an attribute, an event is refused for its fault. -/
theorem Replay.Played.settle_result (played : replay.Played events) {quark : Quark}
    (target : replay.history.tree.find none (event.address.resolve replay.config.separator) =
      some quark) :
    (replay.settle event quark).result =
      match event.fault replay.config events quark with
      | some error => .error error
      | none => .ok () := by
  have linked := played.follows.sound.linked
  have inside := ((linked.find_none_iff _ quark).mp target).1
  have named : event.address.resolve replay.config.separator ≠ [] := by
    intro empty
    rw [empty] at target
    cases target
  have tolerated : (event.operation = .modify ∨
      (replay.history.store.ongoingOf quark).isSome = true ∨ replay.config.ignoreMissing = true) ↔
      (event.effective replay.config.separator events || replay.config.ignoreMissing) = true := by
    rw [Bool.or_eq_true, played.effective_iff target, or_assoc]
  rw [Replay.settle_result played.follows.running inside, Event.fault, if_neg named,
    History.orderFault, played.latest, Option.bind_map]
  simp only [tolerated]
  rfl

/-- A replay refuses an event exactly for its fault after those that were played. Its path leads to an
attribute afterwards, if it names one. -/
theorem Replay.Played.apply_result (played : replay.Played events) (event : Event) :
    ∃ quark, (event.address.resolve replay.config.separator ≠ [] →
        (replay.apply event).state.history.tree.find none
          (event.address.resolve replay.config.separator) = some quark) ∧
      (replay.apply event).result =
        match event.fault replay.config events quark with
        | some error => .error error
        | none => .ok () := by
  have named := Write.resolve_fault played.follows.running
    (event.address.resolve replay.config.separator)
  rcases Replay.apply_cases played.follows.sound event with
    ⟨error, fault, failed⟩ | ⟨_, quark, grown, _, linked, grows, target, settled⟩
  · have empty : event.address.resolve replay.config.separator = [] := by
      by_contra nonempty
      rw [named, if_neg nonempty] at fault
      cases fault
    rw [named, if_pos empty] at fault
    obtain rfl := Option.some.inj fault
    refine ⟨0, fun nonempty => absurd empty nonempty, ?_⟩
    rw [failed, Event.fault, if_pos empty]
    rfl
  · have result := (played.withTree linked grows).settle_result target
    rw [settled]
    exact ⟨quark, fun _ => (Replay.settle_tree _ event quark).symm ▸ target, result⟩

/-- A replay accepts an event exactly when it fits after those that were played. -/
theorem Replay.Played.accepts_iff (played : replay.Played events) (event : Event) :
    (replay.apply event).result = .ok () ↔ event.Fits replay.config events := by
  obtain ⟨quark, _, result⟩ := played.apply_result event
  rw [result, ← Event.fault_eq_none_iff quark played.ordered]
  cases event.fault replay.config events quark <;> simp

/-- An event that is absorbed sets the latest time when it has an effect, and only then. -/
theorem Replay.Played.latest_absorbed (played : replay.Played events) {quark : Quark}
    {after : Replay} (effect : replay.Absorbs event quark after)
    (target : replay.history.tree.find none (event.address.resolve replay.config.separator) =
      some quark) :
    after.history.latestTime =
      if event.effective replay.config.separator events then some event.time
      else replay.history.latestTime := by
  have effective := played.effective_iff target
  cases effect with
  | modified modify granted =>
      rw [if_pos (effective.mpr (Or.inl modify))]
      rfl
  | updated amend granted =>
      rw [if_pos (effective.mpr (Or.inr (Write.ongoing_of_granted granted)))]
      rfl
  | ignored amend idle =>
      rw [if_neg]
      · rfl
      · rw [effective, amend, idle]
        simp

/-- An accepted event is played after the others. -/
theorem Replay.Played.extend (played : replay.Played events)
    (accepted : (replay.apply event).result = .ok ()) :
    (replay.apply event).state.config = replay.config ∧
      (replay.apply event).state.Played (events ++ [event]) := by
  obtain ⟨kept, follows⟩ := Replay.apply_follows played.follows accepted
  have fits := (played.accepts_iff event).mp accepted
  obtain ⟨quark, grown, linked, grows, target, effect⟩ :=
    Replay.apply_accepted played.follows.sound accepted
  have found := played.withTree linked grows
  refine ⟨kept, ?_⟩
  constructor
  case follows => rwa [kept]
  case latest =>
    rw [found.latest_absorbed effect target, kept, effects_append]
    by_cases effective : event.effective replay.config.separator events = true
    · have last : event.effective
          (replay.withHistory (replay.history.withTree grown)).config.separator events = true :=
        effective
      simp [effective, last]
    · have ignored : ¬ event.effective
          (replay.withHistory (replay.history.withTree grown)).config.separator events = true :=
        effective
      rw [if_neg ignored, if_neg effective, List.append_nil]
      exact played.latest
  case ordered =>
    rw [kept, effects_append]
    apply List.pairwise_append.mpr ⟨played.ordered, ?_, ?_⟩
    · split <;> simp
    · intro earlier member later last
      split at last
      · rw [List.mem_singleton.mp last]
        exact fits.ordered earlier member
      · cases last

/-- A replay accepts a stream exactly when every event fits after those before it. -/
theorem Replay.Played.run_accepted_iff (played : replay.Played events) (more : List Event) :
    (replay.run more).result = .ok () ↔
      ∀ before event after, more = before ++ event :: after →
        event.Fits replay.config (events ++ before) := by
  induction more generalizing replay events with
  | nil => simp [Replay.run]
  | cons first rest ih =>
      have step := played.accepts_iff first
      rw [Replay.run]
      constructor
      · intro accepted before event after split
        obtain ⟨_, applied, others⟩ := Attempt.andThen_accepted accepted
        obtain ⟨kept, next⟩ := played.extend applied
        rw [others] at accepted
        cases before with
        | nil =>
            obtain ⟨rfl, _⟩ := List.cons.inj split
            rw [List.append_nil]
            exact step.mp applied
        | cons head tail =>
            obtain ⟨rfl, remaining⟩ := List.cons.inj split
            have fits := (ih next).mp accepted tail event after remaining
            rwa [kept, List.append_assoc] at fits
      · intro fits
        have applied := step.mpr (by simpa using fits [] first rest rfl)
        obtain ⟨kept, next⟩ := played.extend applied
        rw [Attempt.andThen, applied]
        apply (ih next).mpr
        intro before event after split
        rw [kept, List.append_assoc]
        exact fits (first :: before) event after (by rw [split]; rfl)

/-- A stream that is accepted was played. -/
theorem Replay.Played.run (played : replay.Played events) {more : List Event}
    (accepted : (replay.run more).result = .ok ()) :
    (replay.run more).state.config = replay.config ∧
      (replay.run more).state.Played (events ++ more) := by
  induction more generalizing replay events with
  | nil => simpa [Replay.run] using played
  | cons event rest ih =>
      rw [Replay.run] at accepted ⊢
      obtain ⟨_, applied, others⟩ := Attempt.andThen_accepted accepted
      obtain ⟨kept, next⟩ := played.extend applied
      rw [others] at accepted ⊢
      obtain ⟨same, after⟩ := ih next accepted
      rw [List.append_assoc] at after
      exact ⟨same.trans kept, after⟩

/-- A replay can be finished at every time that no effective event exceeds. -/
theorem Replay.Played.finish_accepted_iff (played : replay.Played events) (stop : Option Time) :
    (∃ counters, (replay.finish stop).result = .ok counters) ↔
      ∀ other ∈ effects replay.config.separator events, other.time ≤ replay.endTime stop := by
  have open? : replay.history.closedFault = none := by
    simp [History.closedFault, played.follows.running]
  have granted : (Write.close (replay.endTime stop)).fault replay.history = none ↔
      replay.history.orderFault (replay.endTime stop) = none := by
    rw [Write.fault, open?, Option.none_or]
  rw [← played.orderFault_iff, ← granted]
  constructor
  · rintro ⟨counters, finished⟩
    exact (Replay.finish_accepted played.follows.sound finished).1
  · intro fault
    have effect := played.follows.sound.write_eq (.close (replay.endTime stop))
    rw [fault] at effect
    have closed : ((replay.history.close (replay.endTime stop)).silent).result = .ok () :=
      congrArg Attempt.result effect
    obtain ⟨count, answer, _⟩ := Attempt.andThen_accepted closed
    rw [Replay.finish, Attempt.andThen, Attempt.result_within, answer]
    exact ⟨_, rfl⟩

end Played

/-- A path that a history resolves is resolved by its tree in the same way. -/
theorem History.resolve_tree {history : History} {place : Option Quark}
    (inside : history.tree.HasPlace place) {names : List String} {quark : Quark} {grown : Tree}
    (done : history.resolve place names = .done quark (history.withTree grown)) :
    history.tree.resolve place names = .done quark grown := by
  unfold History.resolve at done
  cases found : history.tree.find place names with
  | some answer =>
      rw [found] at done
      obtain ⟨rfl, same⟩ := Attempt.done_inj.mp done
      obtain rfl : history.tree = grown := congrArg History.tree same
      exact Tree.resolve_of_find inside found
  | none =>
      rw [found] at done
      cases closed : history.closed with
      | true => simp [closed, Attempt.fail, Attempt.done] at done
      | false =>
          simp only [closed, Bool.false_eq_true, if_false] at done
          have result := congrArg Attempt.result done
          have state := congrArg (fun attempt => attempt.state.tree) done
          exact congrArg₂ Attempt.mk result state

/-- Resolving a path makes its beginnings known. -/
theorem History.resolve_knows {history : History} (sound : history.Sound) {names path : List String}
    {quark : Quark} {grown : Tree}
    (done : history.resolve none names = .done quark (history.withTree grown)) :
    grown.Knows path ↔ history.tree.Knows path ∨ (path ≠ [] ∧ path <+: names) := by
  have resolved := History.resolve_tree history.tree.hasPlace_none done
  rw [sound.linked.knows_resolve history.tree.hasPlace_none resolved]
  simp [Tree.route]

/-- After a stream was played, the tree knows the beginnings of the paths in it. -/
theorem Replay.run_knows {replay : Replay} {events : List Event} (sound : replay.history.Sound)
    (accepted : (replay.run events).result = .ok ()) (path : List String) :
    (replay.run events).state.history.tree.Knows path ↔ replay.history.tree.Knows path ∨
      ∃ event ∈ events, path ≠ [] ∧ path <+: event.address.resolve replay.config.separator := by
  induction events generalizing replay with
  | nil => simp [Replay.run]
  | cons event rest ih =>
      rw [Replay.run] at accepted ⊢
      obtain ⟨_, applied, others⟩ := Attempt.andThen_accepted accepted
      rw [others] at accepted ⊢
      rcases Replay.apply_cases sound event with
        ⟨error, _, failed⟩ | ⟨_, quark, grown, done, linked, grows, _, settled⟩
      · rw [failed] at applied
        cases applied
      · have found := sound.withTree linked grows
        have known : grown.Knows path ↔ _ := History.resolve_knows sound done
        rw [settled] at applied
        have effect := Replay.settle_absorbs applied
        rw [settled] at accepted ⊢
        obtain ⟨after, tree, kept⟩ := effect.keeps found
        rw [ih after accepted, tree, kept]
        change grown.Knows path ∨ _ ↔ _
        rw [known, List.exists_mem_cons_iff, or_assoc]
        rfl

end Chronicle
