import Chronicle.History.Query
import Chronicle.Proofs.Acceptance
import Chronicle.Proofs.TileValues

/-!
Attributes do not interfere: what a finished replay tells of a path depends on the events of this
path and on the end alone, and not on the events of other paths between them.
-/

namespace Chronicle

/-- What an interval tells apart from the number of its attribute. -/
def Interval.content (interval : Interval) : Time × Time × Value :=
  (interval.start, interval.stop, interval.value)

/-- Two histories agree on a path when both know it or neither does, and when they give its attribute
the same closed intervals, up to its number, and the same value at every time. -/
structure History.Agree (first second : History) (path : List String) : Prop where
  known : first.tree.Knows path ↔ second.tree.Knows path
  told : ∀ quark twin, first.tree.find none path = some quark →
    second.tree.find none path = some twin →
      (first.store.intervalsOf quark).map Interval.content =
          (second.store.intervalsOf twin).map Interval.content ∧
        ∀ time, first.valueAt quark time = second.valueAt twin time

/-- The event with its address spelled as segments. -/
def Event.spelled (separator : Char) (event : Event) : Event :=
  { event with address := .segments (event.address.resolve separator) }

section Content

/-- Rows that tell the same have the same value at every time. -/
theorem scanned_congr {row other : List Interval}
    (same : row.map Interval.content = other.map Interval.content) (time : Time) :
    scanned row time = scanned other time := by
  let covers (content : Time × Time × Value) : Bool := content.1 ≤ time && time ≤ content.2.1
  have read (items : List Interval) : scanned items time =
      (((items.map Interval.content).find? covers).map fun content => content.2.2).getD .null := by
    rw [List.find?_map, Option.map_map]
    rfl
  rw [read, read, same]

/-- The segments of a list of events tell the same for every attribute. -/
theorem map_content_segments (quark twin : Quark) (events : List Event) (stop : Time) :
    (segments quark events stop).map Interval.content =
      (segments twin events stop).map Interval.content := by
  simp only [segments, innerSegments, List.map_append, List.map_zipWith]
  congr 1
  cases (boundaries events).getLast? <;> rfl

end Content

section Spelling

variable {separator : Char} {path : List String}

/-- Spelling an address does not change what is addressed to a path. -/
theorem addressed_spelled (events : List Event) :
    addressed separator path (events.map (Event.spelled separator)) =
      (addressed separator path events).map (Event.spelled separator) := by
  rw [addressed, List.filter_map]
  rfl

theorem addressed_addressed (events : List Event) :
    addressed separator path (addressed separator path events) =
      addressed separator path events := by
  rw [addressed, addressed, List.filter_filter]
  simp

/-- A replay keeps its configuration. -/
theorem Replay.config_apply (replay : Replay) (event : Event) :
    (replay.apply event).state.config = replay.config := by
  rw [Replay.apply, Attempt.state_andThen]
  split
  · cases event.operation with
    | modify =>
        simp only [Attempt.state_andThen]
        split <;> rfl
    | amend =>
        simp only [Replay.amend]
        split
        · rfl
        · split <;> rfl
        · rfl
  · rfl

/-- A replay only sees the segments of an address, however they are written. -/
theorem Replay.run_spelled (replay : Replay) (events : List Event) :
    replay.run (events.map (Event.spelled replay.config.separator)) = replay.run events := by
  induction events generalizing replay with
  | nil => rfl
  | cons event rest ih =>
      have same : replay.apply (event.spelled replay.config.separator) = replay.apply event := rfl
      have others := ih (replay.apply event).state
      rw [replay.config_apply event] at others
      rw [List.map_cons, Replay.run, Replay.run, same]
      unfold Attempt.andThen
      cases (replay.apply event).result with
      | ok answer => exact others
      | error error => rfl

end Spelling

section Alone

variable {config : Config} {events : List Event} {stop : Time}

/-- The events of one path are accepted when the whole stream is. -/
theorem Replay.alone_accepted (accepted : ((Replay.start config).run events).result = .ok ())
    (path : List String) :
    ((Replay.start config).run (addressed config.separator path events)).result = .ok () := by
  have fits := ((Replay.played_start config).run_accepted_iff events).mp accepted
  apply ((Replay.played_start config).run_accepted_iff _).mpr
  intro before event after split
  obtain ⟨former, latter, whole, rfl, own⟩ := addressed_split split
  exact (fits former event latter whole).alone own

/-- The events of one path can be finished when the whole stream can. -/
theorem Replay.alone_finished (accepted : ((Replay.start config).run events).result = .ok ())
    (finished : ∃ counters, (((Replay.start config).run events).state.finish (some stop)).result =
      .ok counters) (path : List String) :
    ∃ counters, (((Replay.start config).run
      (addressed config.separator path events)).state.finish (some stop)).result =
        .ok counters := by
  obtain ⟨kept, played⟩ := (Replay.played_start config).run accepted
  obtain ⟨same, alone⟩ :=
    (Replay.played_start config).run (Replay.alone_accepted accepted path)
  apply (alone.finish_accepted_iff _).mpr
  have bound := (played.finish_accepted_iff _).mp finished
  rw [same, List.nil_append]
  rw [kept, List.nil_append] at bound
  intro other member
  rw [show (Replay.start config).config.separator = config.separator from rfl,
    effects_addressed] at member
  exact bound other (List.mem_filter.mp member).1

/-- A path with events begins one of their paths, since no accepted event has an empty path. -/
theorem Replay.begins_of_addressed {path : List String}
    (accepted : ((Replay.start config).run events).result = .ok ())
    (present : addressed config.separator path events ≠ []) :
    ∃ event ∈ events, path ≠ [] ∧ path <+: event.address.resolve config.separator := by
  obtain ⟨event, own⟩ := List.exists_mem_of_ne_nil _ present
  obtain ⟨member, resolved⟩ := List.mem_filter.mp own
  obtain ⟨before, after, split⟩ := List.append_of_mem member
  have fits := ((Replay.played_start config).run_accepted_iff events).mp accepted
  have named := (fits before event after split).named
  rw [decide_eq_true_eq] at resolved
  subst resolved
  exact ⟨event, member, named, List.prefix_refl _⟩

/-- After a replay was finished, its history has the segments of its events and nothing ongoing, and
knows the beginnings of their paths. -/
theorem Replay.finished_history {counters : Counters}
    (accepted : ((Replay.start config).run events).result = .ok ())
    (finished : (((Replay.start config).run events).state.finish (some stop)).result =
      .ok counters) :
    let final := (((Replay.start config).run events).state.finish (some stop)).state.history
    final.Sound ∧ counters.endTime = some stop ∧
      (∀ path, final.tree.Knows path ↔
        ∃ event ∈ events, path ≠ [] ∧ path <+: event.address.resolve config.separator) ∧
      ∀ path quark, final.tree.find none path = some quark →
        final.store.intervalsOf quark =
            segments quark (addressed config.separator path events) stop ∧
          final.store.ongoingOf quark = none := by
  obtain ⟨kept, played⟩ := (Replay.played_start config).run accepted
  rw [List.nil_append] at played
  obtain ⟨granted, closed, counted⟩ := Replay.finish_accepted played.follows.sound finished
  have follows := played.follows
  rw [kept] at follows
  rw [closed, counted]
  intro final
  refine ⟨follows.sound.written granted, rfl, fun path => ?_, fun path quark found => ?_⟩
  · have fresh : (Replay.start config).history.Sound := History.sound_empty
    have known := Replay.run_knows fresh accepted path
    have blank : ¬ (Replay.start config).history.tree.Knows path := by
      rintro ⟨quark, found⟩
      have inside := ((Tree.linked_empty.find_none_iff path quark).mp found).1
      simp [Tree.contains, Tree.empty] at inside
    rw [or_iff_right blank] at known
    exact known
  · exact ⟨(follows.segmented path quark found).sealed follows.sound.tiled.level stop,
      Store.ongoingOf_sealed quark⟩

/-- Finished replays whose events of a path are the same agree on it when both know it or neither
does. -/
theorem Replay.finished_agree {other : List Event} {counters ended : Counters}
    {path : List String} (accepted : ((Replay.start config).run events).result = .ok ())
    (finished : (((Replay.start config).run events).state.finish (some stop)).result =
      .ok counters)
    (replayed : ((Replay.start config).run other).result = .ok ())
    (closed : (((Replay.start config).run other).state.finish (some stop)).result = .ok ended)
    (known : (∃ event ∈ events, path ≠ [] ∧ path <+: event.address.resolve config.separator) ↔
      ∃ event ∈ other, path ≠ [] ∧ path <+: event.address.resolve config.separator)
    (same : addressed config.separator path events = addressed config.separator path other) :
    (((Replay.start config).run events).state.finish (some stop)).state.history.Agree
      (((Replay.start config).run other).state.finish (some stop)).state.history path := by
  obtain ⟨sound, _, knows, rows⟩ := Replay.finished_history accepted finished
  obtain ⟨sane, _, also, lines⟩ := Replay.finished_history replayed closed
  constructor
  · rw [knows, also, known]
  · intro quark twin found paired
    obtain ⟨row, idle⟩ := rows path quark found
    obtain ⟨line, still⟩ := lines path twin paired
    have content := map_content_segments quark twin (addressed config.separator path events) stop
    have inside := ((sound.linked.find_none_iff path quark).mp found).1
    have within := ((sane.linked.find_none_iff path twin).mp paired).1
    rw [← row, same, ← line] at content
    refine ⟨content, fun time => ?_⟩
    rw [History.valueAt, if_pos inside, History.valueAt, if_pos within,
      Store.valueAt_eq (sound.tiled.tiling quark).ascends, idle,
      Store.valueAt_eq (sane.tiled.tiling twin).ascends, still]
    exact congrArg Except.ok (scanned_congr content time)

end Alone

/-- What a finished replay tells of a path is what a replay of the events of this path alone tells,
however these are written, and such a replay is accepted and finishes at the same end. So two
streams with the same events for every path agree on all paths. -/
theorem Replay.independence {config : Config} {events : List Event} {stop : Time}
    {counters : Counters} (accepted : ((Replay.start config).run events).result = .ok ())
    (finished : (((Replay.start config).run events).state.finish (some stop)).result =
      .ok counters) :
    let final := (((Replay.start config).run events).state.finish (some stop)).state.history
    let spelled (stream : List Event) := stream.map (Event.spelled config.separator)
    (∀ path own, addressed config.separator path events ≠ [] →
      spelled own = spelled (addressed config.separator path events) →
      let alone := (Replay.start config).run own
      let finishing := alone.state.finish (some stop)
      alone.result = .ok () ∧
        (∃ ended, finishing.result = .ok ended ∧ ended.endTime = some stop) ∧
        final.tree.Knows path ∧ final.Agree finishing.state.history path) ∧
    ∀ other ended, ((Replay.start config).run other).result = .ok () →
      (((Replay.start config).run other).state.finish (some stop)).result = .ok ended →
      (∀ path, spelled (addressed config.separator path other) =
        spelled (addressed config.separator path events)) →
      ∀ path, final.Agree
        (((Replay.start config).run other).state.finish (some stop)).state.history path := by
  intro final spelled
  -- the runs do not change when all addresses are spelled as segments
  have spell (stream : List Event) :
      (Replay.start config).run (spelled stream) = (Replay.start config).run stream :=
    (Replay.start config).run_spelled stream
  have split (path : List String) (stream : List Event) :
      spelled (addressed config.separator path stream) =
        addressed config.separator path (spelled stream) := (addressed_spelled stream).symm
  refine ⟨fun path own present same => ?_, fun other ended replayed closed same path => ?_⟩
  · have alone : (Replay.start config).run own =
        (Replay.start config).run (addressed config.separator path (spelled events)) := by
      rw [← spell own, same, split]
    rw [← spell events] at accepted finished
    have granted := Replay.alone_accepted accepted path
    obtain ⟨ended, closed⟩ := Replay.alone_finished accepted ⟨counters, finished⟩ path
    have nonempty : addressed config.separator path (spelled events) ≠ [] := by
      rw [← split]
      simpa [spelled] using present
    have begun := Replay.begins_of_addressed granted (by rwa [addressed_addressed])
    have listed : ∃ event ∈ spelled events,
        path ≠ [] ∧ path <+: event.address.resolve config.separator := by
      obtain ⟨event, member, begins⟩ := begun
      exact ⟨event, (List.mem_filter.mp member).1, begins⟩
    have agree := Replay.finished_agree accepted finished granted closed
      (iff_of_true listed begun) (addressed_addressed _).symm
    have knows := (Replay.finished_history accepted finished).2.2.1 path
    simp only [alone, final]
    rw [← spell events]
    exact ⟨granted, ⟨ended, closed, (Replay.finished_history granted closed).2.1⟩,
      knows.mpr listed, agree⟩
  · have equal (path : List String) : addressed config.separator path (spelled events) =
        addressed config.separator path (spelled other) := by
      rw [← split, ← split, same]
    -- an event of one stream is among those of its path, which are also in the other stream
    have shared (event : Event) : event ∈ spelled events ↔ event ∈ spelled other := by
      have own := congrArg (event ∈ ·) (equal (event.address.resolve config.separator))
      simpa [addressed] using own
    simp only [final]
    rw [← spell events] at accepted finished ⊢
    rw [← spell other] at replayed closed ⊢
    apply Replay.finished_agree accepted finished replayed closed _ (equal path)
    simp only [shared]

/-- Two attributes change at 2 and at 5. -/
def sharedEvents : List Event :=
  [⟨2, .joined "disk/status", .modify, .text "idle"⟩, ⟨2, .joined "disk/load", .modify, .long 7⟩,
    ⟨5, .joined "disk/load", .amend, .long 8⟩, ⟨5, .joined "disk/status", .modify, .text "busy"⟩]

/-- The same changes in the other order at both times. -/
def swappedEvents : List Event :=
  [⟨2, .joined "disk/load", .modify, .long 7⟩, ⟨2, .joined "disk/status", .modify, .text "idle"⟩,
    ⟨5, .joined "disk/status", .modify, .text "busy"⟩, ⟨5, .joined "disk/load", .amend, .long 8⟩]

/-- The changes of one of the two attributes, written as segments. -/
def statusEvents : List Event :=
  [⟨2, .segments ["disk", "status"], .modify, .text "idle"⟩,
    ⟨5, .segments ["disk", "status"], .modify, .text "busy"⟩]

/-- Both orders tell the same of the load, and of the status they tell what its own events tell. -/
theorem Replay.independence_of_status :
    let finish (events : List Event) := ((Replay.start .default).run events).state.finish (some 9)
    ((Replay.start .default).run sharedEvents).result = .ok () ∧
      (finish sharedEvents).result = .ok ⟨4, 3, 1, 0, 3, 3, some 9⟩ ∧
      ((Replay.start .default).run statusEvents).result = .ok () ∧
      (finish sharedEvents).state.history.Agree (finish statusEvents).state.history
        ["disk", "status"] ∧
      (finish sharedEvents).state.history.Agree (finish swappedEvents).state.history
        ["disk", "load"] := by
  intro finish
  have accepted : ((Replay.start .default).run sharedEvents).result = .ok () := by decide +kernel
  have finished : (finish sharedEvents).result = .ok ⟨4, 3, 1, 0, 3, 3, some 9⟩ := by
    decide +kernel
  have replayed : ((Replay.start .default).run swappedEvents).result = .ok () := by decide +kernel
  have ended : (finish swappedEvents).result = .ok ⟨4, 3, 1, 0, 3, 3, some 9⟩ := by decide +kernel
  obtain ⟨alone, either⟩ := Replay.independence accepted finished
  obtain ⟨granted, _, _, status⟩ :=
    alone ["disk", "status"] statusEvents (by decide +kernel) (by decide +kernel)
  refine ⟨accepted, finished, granted, status, ?_⟩
  apply either swappedEvents _ replayed ended
  intro path
  by_cases one : path = ["disk", "status"]
  · subst one
    decide +kernel
  · by_cases two : path = ["disk", "load"]
    · subst two
      decide +kernel
    · have names (events : List Event) (listed : ∀ event ∈ events,
          event.address.resolve '/' = ["disk", "status"] ∨
            event.address.resolve '/' = ["disk", "load"]) : addressed '/' path events = [] := by
        apply List.filter_eq_nil_iff.mpr
        intro event member
        rcases listed event member with same | same <;> simp [same, Ne.symm one, Ne.symm two]
      have former := names swappedEvents (by decide +kernel)
      have latter := names sharedEvents (by decide +kernel)
      exact congrArg _ (former.trans latter.symm)

end Chronicle
