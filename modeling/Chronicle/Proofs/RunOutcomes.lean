import Chronicle.Proofs.Disks
import Chronicle.Proofs.ExportWords
import Chronicle.Proofs.WrittenStreams

/-!
What comes of a command line that asks for a run. It exits with zero exactly when each of its steps
succeeds: the settings, the events, their replay, its end, the export and the question. A run that fails
prints nothing, and the export is written wherever the history was closed, whatever comes of the question.
-/

namespace Chronicle

/-- A session replays events under a configuration. -/
structure Session where
  config : Config
  events : List Event

/-- The replay of a session. -/
def Session.replayed (session : Session) : Attempt Replay Unit :=
  (Replay.start session.config).run session.events

/-- The replay of a session, finished. -/
def Session.finished (session : Session) (stop : Option Time) : Attempt Replay Counters :=
  session.replayed.state.finish stop

/-- The replay of a session after it was finished. -/
def Session.closed (session : Session) (stop : Option Time) : Replay :=
  (session.finished stop).state

/-- The configuration of a run is the default one, or it stands without a fault in a file that the
options name. -/
inductive Disk.Configures {World : Type} (disk : Disk World) (world : World) (options : Options) :
    Config → Prop
  | default (unnamed : options.config = none) :
      Configures disk world options (Run.adjusted options .default)
  | named {path content : String} {config : Config} (named : options.config = some path)
      (stored : disk.read world path = .bytes (Text.toBytes content))
      (loaded : (Toml.read content).bind Config.ofToml = some config)
      (valid : config.fault = none) :
      Configures disk world options (Run.adjusted options config)

/-- A disk has a session for the options: their configuration, and a file of events that are all
accepted, one after the other. -/
structure Disk.Has {World : Type} (disk : Disk World) (world : World) (options : Options)
    (session : Session) : Prop where
  configured : disk.Configures world options session.config
  stored : ∃ bytes, disk.read world options.events = .bytes bytes ∧
    EventStream.Holds bytes session.events
  accepted : session.replayed.result = .ok ()

/-- A disk has a session whose replay can be finished. -/
def Disk.Closes {World : Type} (disk : Disk World) (world : World) (options : Options)
    (session : Session) : Prop :=
  disk.Has world options session ∧
    ∃ counters, (session.finished options.stop).result = .ok counters

namespace Disk

section Sessions

variable {World : Type} (disk : Disk World) (world : World) (options : Options)

/-- The configuration of a run is the one that its options and their file set. -/
theorem config_eq_ok_iff (config : Config) :
    disk.config world options = .ok config ↔ disk.Configures world options config := by
  rw [Disk.config]
  constructor
  · intro read
    cases named : options.config with
    | none =>
        simp only [named, Except.ok.injEq] at read
        rw [← read]
        exact .default named
    | some path =>
        simp only [named, except_map_eq_ok_iff, Run.configOf_eq_ok_iff] at read
        obtain ⟨former, ⟨text, stored, settled⟩, rfl⟩ := read
        obtain ⟨loaded, valid⟩ := (Config.read_eq_ok_iff text former).mp settled
        exact .named named stored loaded valid
  · intro configures
    cases configures with
    | default unnamed => simp only [unnamed]
    | named named stored loaded valid =>
        simp only [named, except_map_eq_ok_iff, Run.configOf_eq_ok_iff]
        exact ⟨_, ⟨_, stored, (Config.read_eq_ok_iff _ _).mpr ⟨loaded, valid⟩⟩, rfl⟩

variable {disk} {world} {options} {session : Session}

theorem Has.played (has : disk.Has world options session) :
    session.replayed.state.Played session.events :=
  ((Replay.played_start session.config).run has.accepted).2

/-- A disk has no other session for the same options. -/
theorem Has.unique {other : Session} (has : disk.Has world options session)
    (second : disk.Has world options other) : session = other := by
  have config : session.config = other.config := by
    have first := (disk.config_eq_ok_iff world options _).mpr has.configured
    have again := (disk.config_eq_ok_iff world options _).mpr second.configured
    exact Except.ok.inj (first.symm.trans again)
  have events : session.events = other.events := by
    obtain ⟨bytes, stored, held⟩ := has.stored
    obtain ⟨same, again, holds⟩ := second.stored
    obtain rfl := Content.bytes.inj (stored.symm.trans again)
    rw [EventStream.holds_iff] at held holds
    exact List.map_injective_iff.mpr (fun _ _ => Except.ok.inj) (held.symm.trans holds)
  cases session
  cases other
  congr

/-- A session that can be finished closes the history that it has replayed. -/
theorem Closes.history_eq (closes : disk.Closes world options session) :
    let closing := Write.close (session.replayed.state.endTime options.stop)
    closing.fault session.replayed.state.history = none ∧
      (session.closed options.stop).history = session.replayed.state.history.written closing := by
  obtain ⟨has, counters, finished⟩ := closes
  obtain ⟨granted, state, _⟩ := Replay.finish_accepted has.played.follows.sound finished
  exact ⟨granted, congrArg Replay.history state⟩

/-- What is left is a sound history that is closed. -/
theorem Closes.sound (closes : disk.Closes world options session) :
    (session.closed options.stop).history.Sound ∧
      (session.closed options.stop).history.closed = true := by
  obtain ⟨granted, same⟩ := closes.history_eq
  rw [same]
  exact ⟨closes.1.played.follows.sound.written granted, rfl⟩

end Sessions

variable {World : Type} (disk : Disk World) (world : World)

end Disk

end Chronicle
