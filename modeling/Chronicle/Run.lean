import Chronicle.CommandLine
import Chronicle.EventStream
import Chronicle.Report.Render
import Chronicle.Toml.Settings

/-!
Running a command: read the configuration, replay the file of events, close the history, write the
export, and answer the question. Files are reached through two actions only, so the same run serves
a real directory and one that is given as a value.
-/

namespace Chronicle

/-- A file is not there, cannot be read, or has bytes. -/
inductive Content where
  | missing
  | unreadable
  | bytes (content : List UInt8)
  deriving DecidableEq

/-- The actions on files: reading one, and writing a text to one, which may fail. -/
structure Files (m : Type → Type) where
  read : String → m Content
  write : String → String → m Bool

/-- A run fails for one of these reasons. -/
inductive Failure where
  | configFile (path : String)
  | settings (error : SettingsError)
  | eventFile (path : String)
  | stream (error : StreamError)
  | replay (position : Nat) (time : Time) (cause : HistoryError)
  | closing (cause : HistoryError)
  | dumpFile (path : String)
  | range (cause : HistoryError)
  deriving DecidableEq

def Failure.message : Failure → String
  | .configFile path => "Failed to read config file: " ++ path
  | .settings error => error.message
  | .eventFile path => "Failed to open event file: " ++ path
  | .stream error => error.message
  | .replay position time _ =>
      "Replay aborted at event " ++ toString position ++ " (timestamp " ++ toString time ++ ")"
  | .closing _ => "Failed to close state history"
  | .dumpFile path => "Failed to write dump: " ++ path
  | .range _ => "Range query failed"

/-- The refusal of the history that made the run fail. -/
def Failure.cause : Failure → Option HistoryError
  | .replay _ _ cause => some cause
  | .closing cause => some cause
  | .range cause => some cause
  | _ => none

/-- What a failed run says on the error stream. -/
def Failure.report (failure : Failure) : String :=
  match failure.cause with
  | none => "Error: " ++ failure.message
  | some cause => "Error: " ++ failure.message ++ "\n\nCaused by:\n    " ++ cause.message

/-- A run is refused for its arguments, prints a text, or fails and prints nothing. -/
inductive Outcome where
  | usage
  | printed (output : String)
  | failed (failure : Failure)
  deriving DecidableEq

/-- The exit code of a process that ends so. -/
def Outcome.exitCode : Outcome → UInt8
  | .printed _ => 0
  | .failed _ => 1
  | .usage => 2

/-- What a process that ends so prints on the output stream. -/
def Outcome.output : Outcome → String
  | .printed output => output
  | .failed _ => ""
  | .usage => ""

/-- What a process that ends so prints on the error stream. -/
def Outcome.complaint : Outcome → String
  | .printed _ => ""
  | .failed failure => failure.report ++ "\n"
  | .usage => "error: invalid arguments\n"

/-- The name of the program and its version. -/
def versionLine : String := "estado " ++ Report.programVersion ++ "\n"

namespace Run

/-- The configuration in the bytes of a file. -/
def configOf (path : String) : Content → Except Failure Config
  | .bytes content =>
      match Text.ofBytes content with
      | none => .error (.configFile path)
      | some text => (Config.read text).mapError Failure.settings
  | _ => .error (.configFile path)

/-- A strict run tolerates no amendment of an attribute that was never opened. -/
def adjusted (options : Options) (config : Config) : Config :=
  if options.strict then { config with ignoreMissing := false } else config

/-- A file that can be opened but not read fails on its first line. -/
def streamOf (path : String) : Content → Except Failure (List (Except StreamError Event))
  | .missing => .error (.eventFile path)
  | .unreadable => .ok [.error (.unreadable 1)]
  | .bytes content => .ok (EventStream.read content)

/-- The events are applied in order, up to the first that fails; positions count from one. -/
def replay (state : Replay) (position : Nat) :
    List (Except StreamError Event) → Except Failure Replay
  | [] => .ok state
  | .error error :: _ => .error (.stream error)
  | .ok event :: rest =>
      let attempt := state.apply event
      match attempt.result with
      | .error cause => .error (.replay position event.time cause)
      | .ok () => replay attempt.state (position + 1) rest

/-- The history is closed at the time that the options give, if any. -/
def finish (options : Options) (state : Replay) : Except Failure Replay :=
  let attempt := state.finish options.stop
  match attempt.result with
  | .error cause => .error (.closing cause)
  | .ok _ => .ok attempt.state

/-- A range over an unknown path is empty. -/
def rangeAnswer (state : Replay) (path : String) (first last : Time) : Except Failure Answer :=
  match state.history.windowOfPath state.config.separator path first last with
  | .ok window => .ok (.range path (window.intervals state.history))
  | .error cause => if cause.recoverable then .ok (.range path []) else .error (.range cause)

/-- The answer to the question that the options ask. -/
def answer (options : Options) (state : Replay) : Except Failure Answer :=
  let path := options.path.getD ""
  match options.pointTime with
  | some time =>
      .ok (.point path time (state.history.valueOrNull state.config.separator path time))
  | none =>
      match options.bounds with
      | some (first, last) => rangeAnswer state path first last
      | none =>
          match options.snapshotTime with
          | some time =>
              .ok (.snapshot time (state.history.snapshot state.config.separator time))
          | none => .ok .summary

/-- The answer in the format that the options ask for. -/
def output (options : Options) (state : Replay) : Except Failure String :=
  (answer options state).map fun answer => Report.render answer state.summary options.format

/-- The text of the export. -/
def dumpText (state : Replay) : String :=
  (state.history.export state.config.separator).toJson.pretty

/-- The closed history after all events in the content of a file. -/
def replayContent (options : Options) (config : Config) (content : Content) :
    Except Failure Replay := do
  let events ← streamOf options.events content
  let state ← replay (.start config) 1 events
  finish options state

variable {m : Type → Type} [Monad m]

/-- A step that reaches no file. -/
def settled {A : Type} (result : Except Failure A) : ExceptT Failure m A :=
  ExceptT.mk (pure result)

/-- The configuration that the options name, or the default one. -/
def loadConfig (files : Files m) (options : Options) : ExceptT Failure m Config :=
  match options.config with
  | none => pure (adjusted options .default)
  | some path => do
      let content ← files.read path
      settled ((configOf path content).map (adjusted options))

/-- The closed history after all events of the file that the options name. -/
def loadHistory (files : Files m) (options : Options) (config : Config) :
    ExceptT Failure m Replay := do
  let content ← files.read options.events
  settled (replayContent options config content)

/-- The export is written where the options ask for it. -/
def writeDump (files : Files m) (options : Options) (state : Replay) : ExceptT Failure m Unit :=
  match options.dump with
  | none => pure ()
  | some path => do
      let written ← files.write path (dumpText state)
      if written then pure () else throw (.dumpFile path)

/-- The whole run, up to the text that it prints. -/
def run (files : Files m) (options : Options) : ExceptT Failure m String := do
  let config ← loadConfig files options
  let state ← loadHistory files options config
  writeDump files options state
  settled (output options state)

/-- The outcome of a command line. -/
def execute (files : Files m) (arguments : List String) : m Outcome :=
  match CommandLine.parse arguments with
  | none => pure .usage
  | some .version => pure (.printed versionLine)
  | some (.run options) => do
      match ← (run files options).run with
      | .ok text => pure (.printed text)
      | .error failure => pure (.failed failure)

end Run

end Chronicle
