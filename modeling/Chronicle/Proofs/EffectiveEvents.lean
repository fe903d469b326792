import Chronicle.Config
import Chronicle.HistoryError
import Chronicle.Proofs.Segments
import Mathlib.Data.List.Induction

/-!
Which events of a stream have an effect, read off the events alone: every modification, and every
amendment of a path that was modified before. The effective events of one path do not depend on what
the stream says of others.
-/

namespace Chronicle

/-- The first modification that is addressed to a path opens it. -/
def opened (separator : Char) (path : List String) (events : List Event) : Bool :=
  events.any fun event => event.operation = .modify && event.address.resolve separator = path

/-- After the earlier events an event has an effect, unless it amends a path that is not open. -/
def Event.effective (separator : Char) (earlier : List Event) (event : Event) : Bool :=
  event.operation = .modify || opened separator (event.address.resolve separator) earlier

/-- The events of a stream that have an effect when it continues the earlier events. -/
def effectsAfter (separator : Char) (earlier : List Event) : List Event → List Event
  | [] => []
  | event :: rest =>
      let others := effectsAfter separator (earlier ++ [event]) rest
      if event.effective separator earlier then event :: others else others

/-- The events of a stream that have an effect. -/
def effects (separator : Char) (events : List Event) : List Event :=
  effectsAfter separator [] events

/-- After the earlier events of a stream an event fits when it names an attribute, does not precede
an effective event, and is effective itself where the configuration insists on it. -/
structure Event.Fits (config : Config) (earlier : List Event) (event : Event) : Prop where
  named : event.address.resolve config.separator ≠ []
  ordered : ∀ other ∈ effects config.separator earlier, other.time ≤ event.time
  tolerated : event.effective config.separator earlier = true ∨ config.ignoreMissing = true

/-- The first reason for which an event is refused after those that were accepted. It names nothing, or
it precedes the last effective event, or it has no effect and the configuration insists on one. The
quark is that of the attribute which the event names. -/
def Event.fault (config : Config) (accepted : List Event) (quark : Quark) (event : Event) :
    Option HistoryError :=
  if event.address.resolve config.separator = [] then some (.unknownPath "")
  else
    ((effects config.separator accepted).getLast?.bind fun last =>
        if event.time < last.time then some (.timeBeforeLatest event.time last.time)
        else none).or
      (if event.effective config.separator accepted || config.ignoreMissing then none
      else some (.notOngoing quark))

variable {separator : Char} {path : List String} {event : Event} {events earlier : List Event}

/-- A path is open when its own events have a boundary. -/
theorem opened_iff : opened separator path events = true ↔
    boundaries (addressed separator path events) ≠ [] := by
  have modified : opened separator path events = true ↔
      ∃ time, time ∈ boundaries (addressed separator path events) := by
    simp only [opened, List.any_eq_true, Bool.and_eq_true, decide_eq_true_eq, mem_boundaries,
      addressed, List.mem_filter, Event.begins]
    constructor
    · rintro ⟨event, member, modify, own⟩
      exact ⟨event.time, event, ⟨member, own⟩, modify, rfl⟩
    · rintro ⟨_, event, ⟨member, own⟩, modify, _⟩
      exact ⟨event, member, modify, own⟩
  rw [modified]
  constructor
  · rintro ⟨time, member⟩
    exact List.ne_nil_of_mem member
  · exact List.exists_mem_of_ne_nil _

/-- Only the own events of a path open it. -/
theorem opened_addressed (events : List Event) :
    opened separator path (addressed separator path events) = opened separator path events := by
  rw [Bool.eq_iff_iff, opened_iff, opened_iff]
  simp [addressed]

/-- Whether an event has an effect only depends on the events of its path. -/
theorem Event.effective_alone (own : event.address.resolve separator = path)
    (events : List Event) :
    event.effective separator (addressed separator path events) =
      event.effective separator events := by
  rw [Event.effective, Event.effective, own, opened_addressed]

theorem effectsAfter_append (first second : List Event) :
    effectsAfter separator earlier (first ++ second) =
      effectsAfter separator earlier first ++
        effectsAfter separator (earlier ++ first) second := by
  induction first generalizing earlier with
  | nil => simp [effectsAfter]
  | cons event rest ih =>
      simp only [List.cons_append, effectsAfter, ih, List.append_assoc, List.nil_append]
      split <;> rfl

/-- A further event counts when it has an effect after all the others. -/
theorem effects_append (events : List Event) (event : Event) :
    effects separator (events ++ [event]) =
      effects separator events ++
        if event.effective separator events then [event] else [] := by
  simp [effects, effectsAfter_append, effectsAfter]

/-- The effective ones among the events of a path are the effective events that are addressed to
it. -/
theorem effects_addressed (events : List Event) :
    effects separator (addressed separator path events) =
      addressed separator path (effects separator events) := by
  induction events using List.reverseRecOn with
  | nil => rfl
  | append_singleton events event ih =>
      rw [addressed_append, effects_append]
      by_cases own : event.address.resolve separator = path
      · rw [if_pos own, effects_append, ih, Event.effective_alone own]
        cases event.effective separator events <;> simp [addressed, own]
      · rw [if_neg own, ih]
        cases event.effective separator events <;> simp [addressed, own]

/-- A stream in which every event has an effect keeps all its events. -/
theorem effects_eq_self
    (all : ∀ before event after, events = before ++ event :: after →
      event.effective separator before = true) : effects separator events = events := by
  induction events using List.reverseRecOn with
  | nil => rfl
  | append_singleton events event ih =>
      have last := all events event [] rfl
      have others : ∀ before other after, events = before ++ other :: after →
          other.effective separator before = true := by
        intro before other after split
        exact all before other (after ++ [event]) (by rw [split]; simp)
      rw [effects_append, ih others, last]
      rfl

/-- A time that the last of ordered events does not exceed is exceeded by none of them. -/
theorem last_time_le_iff (ordered : events.Pairwise fun first second => first.time ≤ second.time)
    (time : Time) :
    (∀ last, events.getLast? = some last → last.time ≤ time) ↔
      ∀ other ∈ events, other.time ≤ time := by
  cases final : events.getLast? with
  | none => simp [List.getLast?_eq_none_iff.mp final]
  | some last =>
      obtain ⟨others, rfl⟩ := List.getLast?_eq_some_iff.mp final
      have greatest := (List.pairwise_append.mp ordered).2.2
      constructor
      · intro after other member
        have bound := after last rfl
        rcases List.mem_append.mp member with among | here
        · exact Nat.le_trans (greatest other among last (List.mem_singleton_self last)) bound
        · rwa [List.mem_singleton.mp here]
      · rintro all _ ⟨rfl⟩
        exact all last (by simp)

/-- After events whose effects are in the order of time, the events without a fault are those that
fit. -/
theorem Event.fault_eq_none_iff {config : Config} (quark : Quark)
    (ordered : (effects config.separator earlier).Pairwise fun first second =>
      first.time ≤ second.time) :
    event.fault config earlier quark = none ↔ event.Fits config earlier := by
  have inOrder : ((effects config.separator earlier).getLast?.bind fun last =>
      if event.time < last.time then some (HistoryError.timeBeforeLatest event.time last.time)
      else none) = none ↔ ∀ other ∈ effects config.separator earlier, other.time ≤ event.time := by
    rw [← last_time_le_iff ordered, Option.bind_eq_none_iff]
    simp
  rw [Event.fault]
  by_cases empty : event.address.resolve config.separator = []
  · rw [if_pos empty]
    constructor
    · intro impossible
      cases impossible
    · intro fits
      exact absurd empty fits.named
  · rw [if_neg empty, Option.or_eq_none_iff, inOrder]
    simp only [ite_eq_left_iff, reduceCtorEq, imp_false, not_not, Bool.or_eq_true]
    exact ⟨fun ⟨order, tolerated⟩ => ⟨empty, order, tolerated⟩,
      fun fits => ⟨fits.ordered, fits.tolerated⟩⟩

/-- What fits into a stream fits among the events of its own path. -/
theorem Event.Fits.alone {config : Config} (fits : event.Fits config earlier)
    (own : event.address.resolve config.separator = path) :
    event.Fits config (addressed config.separator path earlier) where
  named := fits.named
  ordered := by
    intro other member
    rw [effects_addressed] at member
    exact fits.ordered other (List.mem_filter.mp member).1
  tolerated := by
    rw [Event.effective_alone own]
    exact fits.tolerated

/-- Where an event stands among those of its path, it stands in the whole stream after events that
have the same ones of its path before it. -/
theorem addressed_split {before after : List Event}
    (split : addressed separator path events = before ++ event :: after) :
    ∃ former latter, events = former ++ event :: latter ∧
      addressed separator path former = before ∧ event.address.resolve separator = path := by
  obtain ⟨former, rest, rfl, rfl, remaining⟩ := List.filter_eq_append_iff.mp split
  obtain ⟨skipped, latter, rfl, others, own, rfl⟩ := List.filter_eq_cons_iff.mp remaining
  refine ⟨former ++ skipped, latter, by simp, ?_, by simpa using own⟩
  rw [addressed, List.filter_append, List.filter_eq_nil_iff.mpr others, List.append_nil]

end Chronicle
