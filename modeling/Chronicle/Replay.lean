import Chronicle.Config
import Chronicle.Event
import Chronicle.History.Basic

/-!
Replaying a stream of events into a history, with counters of what was applied.
-/

namespace Chronicle

/-- The counters of a replay; the last three are known once it is finished. -/
structure Counters where
  events : Nat
  modifications : Nat
  updates : Nat
  ignoredUpdates : Nat
  quarks : Nat
  intervals : Nat
  endTime : Option Time
  deriving DecidableEq, Inhabited

def Counters.zero : Counters := ⟨0, 0, 0, 0, 0, 0, none⟩

/-- One modification was applied. -/
def Counters.modified (counters : Counters) : Counters :=
  { counters with
    events := counters.events + 1
    modifications := counters.modifications + 1 }

/-- One amendment was applied. -/
def Counters.updated (counters : Counters) : Counters :=
  { counters with
    events := counters.events + 1
    updates := counters.updates + 1 }

/-- One amendment found no ongoing interval and was ignored. -/
def Counters.ignored (counters : Counters) : Counters :=
  { counters with
    events := counters.events + 1
    ignoredUpdates := counters.ignoredUpdates + 1 }

/-- A replay writes into a history under a configuration. -/
structure Replay where
  config : Config
  history : History
  counters : Counters
  deriving DecidableEq, Inhabited

def Replay.start (config : Config) : Replay := ⟨config, .empty, .zero⟩

def Replay.withHistory (replay : Replay) (history : History) : Replay :=
  { replay with history := history }

/-- Count one applied event. -/
def Replay.count (replay : Replay) (step : Counters → Counters) : Replay :=
  { replay with counters := step replay.counters }

/-- The amendment of an attribute that has no ongoing interval is ignored where the configuration
says so. -/
def Replay.amend (replay : Replay) (event : Event) (quark : Quark) : Attempt Replay Unit :=
  let attempt := replay.history.amendAt event.time quark event.value
  let next := replay.withHistory attempt.state
  match attempt.result with
  | .ok () => .done () (next.count Counters.updated)
  | .error (.notOngoing missing) =>
      if replay.config.ignoreMissing then .done () (next.count Counters.ignored)
      else .fail (.notOngoing missing) next
  | .error error => .fail error next

/-- Applying an event resolves its address first, so a refused event may have created
attributes. -/
def Replay.apply (replay : Replay) (event : Event) : Attempt Replay Unit :=
  let segments := event.address.resolve replay.config.separator
  ((replay.history.resolve none segments).within replay.withHistory).andThen fun quark found =>
    match event.operation with
    | .modify =>
        ((found.history.modify event.time quark event.value).within found.withHistory).andThen
          fun _ written => .done () (written.count Counters.modified)
    | .amend => found.amend event quark

/-- Applying events in order stops at the first that is refused. -/
def Replay.run (replay : Replay) : List Event → Attempt Replay Unit
  | [] => .done () replay
  | event :: rest => (replay.apply event).andThen fun _ next => next.run rest

/-- A replay ends at the given time, else at the latest accepted one, else at zero. -/
def Replay.endTime (replay : Replay) (stop : Option Time) : Time :=
  (stop.or replay.history.latestTime).getD 0

/-- Finishing closes the history and answers the final counters. -/
def Replay.finish (replay : Replay) (stop : Option Time) : Attempt Replay Counters :=
  let time := replay.endTime stop
  ((replay.history.close time).within replay.withHistory).andThen fun _ closed =>
    let counters : Counters :=
      { closed.counters with
        quarks := closed.history.tree.size
        intervals := closed.history.store.closedCount
        endTime := some time }
    .done counters { closed with counters := counters }

end Chronicle
