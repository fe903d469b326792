import Chronicle.Proofs.ReplayEffects
import Chronicle.Proofs.Segments

/-!
A replay segments every attribute as its events say: one interval for each distinct modification
time, each under the last value that came before the next one began.
-/

namespace Chronicle

/-- A quark is segmented by its own events when its closed intervals are the inner segments and its
ongoing one is the last segment. -/
structure Store.Segmented (store : Store) (quark : Quark) (own : List Event) : Prop where
  closed : store.intervalsOf quark = innerSegments quark own
  ongoing : store.ongoingOf quark =
    (boundaries own).getLast?.map fun start => ⟨start, lastValue own⟩

section Segmented

variable {store : Store} {quark : Quark} {own : List Event} {event : Event}

theorem Store.Segmented.frame (segmented : store.Segmented quark own) {after : Store}
    (row : after.intervalsOf quark = store.intervalsOf quark)
    (state : after.ongoingOf quark = store.ongoingOf quark) : after.Segmented quark own where
  closed := row.trans segmented.closed
  ongoing := state.trans segmented.ongoing

/-- A quark without events was never opened. -/
theorem Store.Segmented.blank (row : store.intervalsOf quark = [])
    (state : store.ongoingOf quark = none) : store.Segmented quark [] where
  closed := row
  ongoing := state

/-- The boundaries of a current quark lie at or before the time. -/
theorem Store.Segmented.boundaries_le (segmented : store.Segmented quark own) {time : Time}
    (current : store.Current quark time) : ∀ start ∈ boundaries own, start ≤ time := by
  intro start member
  have last := List.getLast?_eq_some_getLast (List.ne_nil_of_mem member)
  have held := segmented.ongoing
  rw [last, Option.map_some] at held
  exact Nat.le_trans ((boundaries_le_last last).2 start member) (current.started _ held)

/-- At a boundary nothing is cut off, and it is the last one. -/
theorem Store.Segmented.cut_old (segmented : store.Segmented quark own) {time : Time}
    (current : store.Current quark time) (known : time ∈ boundaries own) :
    store.cut quark time = none ∧ (boundaries own).getLast? = some time := by
  have last := List.getLast?_eq_some_getLast (List.ne_nil_of_mem known)
  obtain ⟨member, greatest⟩ := boundaries_le_last last
  have same := Nat.le_antisymm (segmented.boundaries_le current _ member) (greatest time known)
  rw [same] at last
  refine ⟨?_, last⟩
  simp [Store.cut, segmented.ongoing, last]

/-- Between boundaries the last segment is cut off just before the time. -/
theorem Store.Segmented.cut_new (segmented : store.Segmented quark own) {time : Time}
    (fresh : time ∉ boundaries own) :
    store.cut quark time = (boundaries own).getLast?.map fun start =>
      ⟨quark, start, time - 1, lastValue own⟩ := by
  unfold Store.cut
  rw [segmented.ongoing]
  cases last : (boundaries own).getLast? with
  | none => rfl
  | some start =>
      have apart : start ≠ time := by
        rintro rfl
        exact fresh (boundaries_le_last last).1
      simp [apart, Ongoing.close]

/-- A change adds one interval, closed or ongoing, unless it lies at a boundary. -/
theorem Store.Segmented.cut_count (segmented : store.Segmented quark own) {time : Time}
    (current : store.Current quark time) :
    (store.cut quark time).toList.length + (if (store.ongoingOf quark).isSome then 0 else 1) =
      if time ∈ boundaries own then 0 else 1 := by
  by_cases known : time ∈ boundaries own
  · obtain ⟨uncut, last⟩ := segmented.cut_old current known
    simp [uncut, known, segmented.ongoing, last]
  · rw [segmented.cut_new known, segmented.ongoing, if_neg known]
    cases (boundaries own).getLast? with
    | none => rfl
    | some start => rfl

/-- A modification of a current quark begins its next segment, or changes the value of the last. -/
theorem Store.Segmented.recorded (segmented : store.Segmented quark own) (level : store.Level)
    (current : store.Current quark event.time) (modify : event.operation = .modify) :
    (store.recorded quark event.time event.value).Segmented quark (own ++ [event]) := by
  have row : (store.recorded quark event.time event.value).intervalsOf quark =
      store.intervalsOf quark ++ (store.cut quark event.time).toList :=
    (Store.intervalsOf_recorded level quark).trans (if_pos rfl)
  have state : (store.recorded quark event.time event.value).ongoingOf quark =
      some ⟨event.time, event.value⟩ := (Store.ongoingOf_recorded level quark).trans (if_pos rfl)
  rw [segmented.closed] at row
  by_cases known : event.time ∈ boundaries own
  · obtain ⟨uncut, last⟩ := segmented.cut_old current known
    constructor
    · rw [row, uncut, innerSegments_append_old quark fun _ => known]
      exact List.append_nil _
    · rw [state, boundaries_append_old fun _ => known, last, lastValue_append]
      rfl
  · have later : ∀ time ∈ boundaries own, time < event.time := by
      intro time member
      apply Nat.lt_of_le_of_ne (segmented.boundaries_le current time member)
      rintro rfl
      exact known member
    constructor
    · rw [row, segmented.cut_new known, innerSegments_append_new quark modify later]
    · rw [state, boundaries_append_new modify later, List.getLast?_concat, lastValue_append]
      rfl

/-- An amendment changes the value of the last segment, if there is one. -/
theorem Store.Segmented.revalued (segmented : store.Segmented quark own)
    (amend : event.operation = .amend) :
    (store.revalued quark event.value).Segmented quark (own ++ [event]) := by
  have old : event.operation = .modify → event.time ∈ boundaries own := by simp [amend]
  constructor
  · rw [Store.intervalsOf_revalued, innerSegments_append_old quark old, segmented.closed]
  · rw [Store.ongoingOf_revalued, if_pos rfl, segmented.ongoing, boundaries_append_old old,
      lastValue_append, Option.map_map]
    rfl

/-- Closing ends the last segment, so the quark has all its segments as closed intervals. -/
theorem Store.Segmented.sealed (segmented : store.Segmented quark own) (level : store.Level)
    (stop : Time) : (store.sealed stop).intervalsOf quark = segments quark own stop := by
  rw [Store.intervalsOf_sealed level, Store.timeline, segmented.closed, segmented.ongoing,
    Option.map_map]
  rfl

end Segmented

/-- A running history follows a stream of events when the events addressed to a path segment its
quark, and no path with events is missing. -/
structure History.Follows (history : History) (separator : Char) (events : List Event) : Prop where
  sound : history.Sound
  running : history.closed = false
  segmented : ∀ path quark, history.tree.find none path = some quark →
    history.store.Segmented quark (addressed separator path events)
  found : ∀ path, addressed separator path events ≠ [] →
    ∃ quark, history.tree.find none path = some quark
  counted : history.store.closedCount + history.store.allOngoing.length =
    (moments separator events).length

section Follows

variable {history after : History} {separator : Char} {events : List Event} {event : Event}
  {quark : Quark}

theorem History.follows_empty (separator : Char) : History.empty.Follows separator [] where
  sound := History.sound_empty
  running := rfl
  segmented _ _ _ := Store.Segmented.blank rfl rfl
  found _ present := absurd rfl present
  counted := rfl

/-- A tree that grows has no events for its new paths yet. -/
theorem History.Follows.withTree (follows : history.Follows separator events) {grown : Tree}
    (linked : grown.Linked) (grows : history.tree.Grows grown) :
    (history.withTree grown).Follows separator events where
  sound := follows.sound.withTree linked grows
  running := follows.running
  segmented path quark reached := by
    have before := follows.sound.linked
    by_cases inside : history.tree.contains quark = true
    · exact follows.segmented path quark ((grows.find_iff before linked inside).mp reached)
    · have unused : ¬(history.store.intervalsOf quark ≠ [] ∨
          (history.store.ongoingOf quark).isSome = true) :=
        fun used => inside (follows.sound.tiled.issued quark used)
      simp only [not_or, not_not, Bool.not_eq_true, Option.isSome_eq_false_iff,
        Option.isNone_iff_eq_none] at unused
      have silent : addressed separator path events = [] := by
        by_contra present
        obtain ⟨other, earlier⟩ := follows.found path present
        have same : grown.find none path = some other := grows.find before linked earlier
        change grown.find none path = some quark at reached
        rw [reached, Option.some.injEq] at same
        rw [← same] at earlier
        exact inside ((before.find_none_iff path quark).mp earlier).1
      rw [silent]
      exact Store.Segmented.blank unused.1 unused.2
  found path present := by
    obtain ⟨quark, earlier⟩ := follows.found path present
    exact ⟨quark, grows.find follows.sound.linked linked earlier⟩
  counted := follows.counted

/-- One more event is followed when it changes its own quark only. -/
theorem History.Follows.extend (follows : history.Follows separator events)
    (sound : after.Sound) (running : after.closed = false) (tree : after.tree = history.tree)
    (target : history.tree.find none (event.address.resolve separator) = some quark)
    (own : after.store.Segmented quark
      (addressed separator (event.address.resolve separator) events ++ [event]))
    (others : ∀ other, other ≠ quark →
      after.store.intervalsOf other = history.store.intervalsOf other ∧
        after.store.ongoingOf other = history.store.ongoingOf other)
    (counted : after.store.closedCount + after.store.allOngoing.length =
      (moments separator (events ++ [event])).length) :
    after.Follows separator (events ++ [event]) where
  sound := sound
  running := running
  segmented path other reached := by
    rw [tree] at reached
    rw [addressed_append]
    by_cases same : event.address.resolve separator = path
    · rw [same] at target own
      rw [target, Option.some.injEq] at reached
      rw [if_pos same, ← reached]
      exact own
    · have apart : other ≠ quark := by
        rintro rfl
        have linked := follows.sound.linked
        apply same
        rw [← ((linked.find_none_iff _ _).mp target).2, ((linked.find_none_iff _ _).mp reached).2]
      obtain ⟨row, state⟩ := others other apart
      rw [if_neg same]
      exact (follows.segmented path other reached).frame row state
  found path present := by
    rw [tree]
    rw [addressed_append] at present
    by_cases same : event.address.resolve separator = path
    · exact ⟨quark, same ▸ target⟩
    · rw [if_neg same] at present
      exact follows.found path present
  counted := counted

/-- An accepted modification is followed. -/
theorem History.Follows.modified (follows : history.Follows separator events)
    (target : history.tree.find none (event.address.resolve separator) = some quark)
    (modify : event.operation = .modify)
    (granted : (Write.modify event.time quark event.value).fault history = none) :
    (history.written (.modify event.time quark event.value)).Follows separator
      (events ++ [event]) := by
  have sound := follows.sound
  have level := sound.tiled.level
  have segmented := follows.segmented _ quark target
  have order : history.orderFault event.time = none := by
    simp only [Write.fault, Option.or_eq_none_iff] at granted
    exact granted.1.2
  have current := sound.tiled.current follows.running order quark
  apply follows.extend (sound.written granted) follows.running rfl target
  case own => exact segmented.recorded level current modify
  case others =>
    intro other apart
    exact ⟨(Store.intervalsOf_recorded level other).trans (if_neg apart),
      (Store.ongoingOf_recorded level other).trans (if_neg apart)⟩
  case counted =>
    have added := segmented.cut_count current
    have count := follows.counted
    change (history.store.recorded quark event.time event.value).closedCount +
      (history.store.recorded quark event.time event.value).allOngoing.length = _
    rw [Store.closedCount_recorded, Store.length_allOngoing_recorded level,
      length_moments_append modify, ← added, ← count]
    omega

/-- An accepted or ignored amendment is followed. -/
theorem History.Follows.revalued (follows : history.Follows separator events)
    (sound : after.Sound) (running : after.closed = false) (tree : after.tree = history.tree)
    (store : after.store = history.store.revalued quark event.value)
    (target : history.tree.find none (event.address.resolve separator) = some quark)
    (amend : event.operation = .amend) : after.Follows separator (events ++ [event]) := by
  apply follows.extend sound running tree target
  case own =>
    rw [store]
    exact (follows.segmented _ quark target).revalued amend
  case others =>
    intro other apart
    rw [store]
    exact ⟨Store.intervalsOf_revalued other,
      (Store.ongoingOf_revalued other).trans (if_neg apart)⟩
  case counted =>
    rw [store, Store.closedCount_revalued, Store.length_allOngoing_revalued,
      moments_append_amend amend]
    exact follows.counted

end Follows

/-- An event that a replay accepts is followed. -/
theorem Replay.apply_follows {replay : Replay} {earlier : List Event} {event : Event}
    (follows : replay.history.Follows replay.config.separator earlier)
    (accepted : (replay.apply event).result = .ok ()) :
    (replay.apply event).state.config = replay.config ∧
      (replay.apply event).state.history.Follows replay.config.separator (earlier ++ [event]) := by
  obtain ⟨quark, grown, linked, grows, target, effect⟩ :=
    Replay.apply_accepted follows.sound accepted
  have resolved := follows.withTree linked grows
  generalize (replay.apply event).state = next at effect
  cases effect with
  | modified modify granted => exact ⟨rfl, resolved.modified target modify granted⟩
  | updated amend granted =>
      exact ⟨rfl, resolved.revalued (resolved.sound.written granted) resolved.running rfl rfl
        target amend⟩
  | ignored amend idle =>
      refine ⟨rfl, resolved.revalued resolved.sound resolved.running rfl ?_ target amend⟩
      exact (Store.revalued_idle idle _).symm

/-- A replay that accepts a list of events follows it. -/
theorem Replay.run_follows {replay : Replay} {earlier events : List Event}
    (follows : replay.history.Follows replay.config.separator earlier)
    (accepted : (replay.run events).result = .ok ()) :
    (replay.run events).state.history.Follows replay.config.separator (earlier ++ events) := by
  induction events generalizing replay earlier with
  | nil => simpa [Replay.run] using follows
  | cons event rest ih =>
      rw [Replay.run] at accepted ⊢
      obtain ⟨_, first, others⟩ := Attempt.andThen_accepted accepted
      obtain ⟨kept, next⟩ := Replay.apply_follows follows first
      rw [others] at accepted ⊢
      rw [← kept] at next ⊢
      rw [List.append_cons]
      exact ih next accepted

/-- A finished replay has exactly the segments of its events as closed intervals: every path with
events has its quark, the counted intervals are the distinct moments of modification, and nothing
stays ongoing. -/
theorem Replay.segmentation {config : Config} {events : List Event} {stop : Time}
    {counters : Counters} (accepted : ((Replay.start config).run events).result = .ok ())
    (finished : (((Replay.start config).run events).state.finish (some stop)).result =
      .ok counters) :
    let final := (((Replay.start config).run events).state.finish (some stop)).state.history
    (∀ path quark, final.tree.find none path = some quark →
      final.store.intervalsOf quark =
        segments quark (addressed config.separator path events) stop) ∧
    (∀ path, final.tree.find none path = none → addressed config.separator path events = []) ∧
    counters.intervals = (moments config.separator events).length ∧
    ∀ quark, final.store.ongoingOf quark = none := by
  have blank : (Replay.start config).history.Follows config.separator [] :=
    History.follows_empty config.separator
  have follows : ((Replay.start config).run events).state.history.Follows config.separator
      ([] ++ events) := Replay.run_follows blank accepted
  rw [List.nil_append] at follows
  obtain ⟨_, closed, counted⟩ := Replay.finish_accepted follows.sound finished
  rw [closed]
  intro final
  refine ⟨fun path quark reached => ?_, fun path missing => ?_, ?_, Store.ongoingOf_sealed⟩
  · exact (follows.segmented path quark reached).sealed follows.sound.tiled.level stop
  · by_contra present
    obtain ⟨quark, found⟩ := follows.found path present
    have absent : ((Replay.start config).run events).state.history.tree.find none path = none :=
      missing
    rw [absent] at found
    cases found
  · rw [counted, ← follows.counted]
    exact Store.closedCount_shutAll

/-- The stream amends before the first modification, modifies twice at 2, and amends at 5 and 6. -/
def diskEvents : List Event :=
  [⟨1, .segments ["disk", "status"], .amend, .text "early"⟩,
    ⟨2, .joined "disk/status", .modify, .text "idle"⟩,
    ⟨2, .segments ["disk", "status"], .modify, .text "spinning"⟩,
    ⟨4, .joined "/disk/load", .modify, .long 7⟩,
    ⟨5, .joined "disk/status", .amend, .text "calm"⟩,
    ⟨6, .joined "disk/status", .modify, .text "busy"⟩,
    ⟨6, .joined "disk//status", .amend, .text "late"⟩]

/-- The replay counts three intervals, and two of them are those of the status. -/
theorem Replay.segmentation_of_status :
    let played := (Replay.start .default).run diskEvents
    let ended := played.state.finish (some 9)
    played.result = .ok () ∧ ended.result = .ok ⟨7, 4, 2, 1, 3, 3, some 9⟩ ∧
      (moments '/' diskEvents).length = 3 ∧
      ended.state.history.tree.find none ["disk", "status"] = some 1 ∧
      ended.state.history.store.intervalsOf 1 =
        [⟨1, 2, 5, .text "calm"⟩, ⟨1, 6, 9, .text "late"⟩] := by
  intro played ended
  have accepted : played.result = .ok () := by decide +kernel
  have finished : ended.result = .ok ⟨7, 4, 2, 1, 3, 3, some 9⟩ := by decide +kernel
  have found : ended.state.history.tree.find none ["disk", "status"] = some 1 := by decide +kernel
  obtain ⟨rows, _, counted, _⟩ := Replay.segmentation accepted finished
  refine ⟨accepted, finished, counted.symm, found, ?_⟩
  rw [rows ["disk", "status"] 1 found]
  decide +kernel

end Chronicle
