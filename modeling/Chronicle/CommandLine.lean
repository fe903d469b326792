import Chronicle.Interval
import Chronicle.Report.Basic

/-!
The command line. Arguments are taken from left to right; options may stand before and behind the
file of events. A value follows its option as the next argument or behind an equals sign, and only
there may it begin with a dash.
-/

namespace Chronicle

/-- A command replays a file of events and answers one question, or reports its version. -/
structure Options where
  events : String
  stop : Option Time
  config : Option String
  strict : Bool
  path : Option String
  pointTime : Option Time
  range : Option (List Time)
  snapshotTime : Option Time
  dump : Option String
  format : Format
  debug : Bool
  deriving DecidableEq

/-- A range has exactly two times; any other number of them asks for no range. -/
def Options.bounds (options : Options) : Option (Time × Time) :=
  match options.range with
  | some [first, last] => some (first, last)
  | _ => none

inductive Command where
  | run (options : Options)
  | version
  deriving DecidableEq

namespace CommandLine

/-- The options that take values. -/
inductive Key where
  | stop
  | config
  | path
  | pointTime
  | range
  | snapshotTime
  | dump
  | format
  deriving DecidableEq

/-- The options that take no value. -/
inductive Flag where
  | strict
  | debug
  | version
  deriving DecidableEq

def Key.ofName (name : String) : Option Key :=
  if name = "end" then some .stop
  else if name = "config" then some .config
  else if name = "path" then some .path
  else if name = "at" then some .pointTime
  else if name = "range" then some .range
  else if name = "full-state" then some .snapshotTime
  else if name = "dump" then some .dump
  else if name = "format" then some .format
  else none

def Flag.ofName (name : String) : Option Flag :=
  if name = "strict" then some .strict
  else if name = "debug" then some .debug
  else if name = "version" then some .version
  else none

/-- A range takes two values, every other option one. -/
def Key.arity : Key → Nat
  | .range => 2
  | _ => 1

/-- What was given so far. -/
structure Draft where
  events : Option String
  stop : Option Time
  config : Option String
  strict : Bool
  path : Option String
  pointTime : Option Time
  range : Option (List Time)
  snapshotTime : Option Time
  dump : Option String
  format : Option Format
  debug : Bool
  deriving DecidableEq

def Draft.empty : Draft :=
  ⟨none, none, none, false, none, none, none, none, none, none, false⟩

/-- A time is written in decimal, with or without a plus sign. -/
def readTime (content : String) : Option Time :=
  let digits :=
    match content.toList with
    | '+' :: rest => rest
    | characters => characters
  if digits ≠ [] ∧ digits.all Char.isDigit then
    let time := Nat.ofDigitChars 10 digits 0
    if time < wordBound then some time else none
  else none

/-- A file has a name. -/
def readFile (content : String) : Option String :=
  if content = "" then none else some content

/-- An option is given at most once. -/
def once {A : Type} (held : Option A) (given : Option A) : Option (Option A) :=
  if held.isSome then none else given.map some

/-- The values of an option enter the draft. Further values of a range are added to it. -/
def Draft.set (draft : Draft) (key : Key) (values : List String) : Option Draft :=
  match key, values with
  | .stop, [value] => (once draft.stop (readTime value)).map fun stop => { draft with stop }
  | .config, [value] =>
      (once draft.config (readFile value)).map fun config => { draft with config }
  | .path, [value] => (once draft.path (some value)).map fun path => { draft with path }
  | .pointTime, [value] =>
      (once draft.pointTime (readTime value)).map fun pointTime => { draft with pointTime }
  | .snapshotTime, [value] =>
      (once draft.snapshotTime (readTime value)).map fun snapshotTime =>
        { draft with snapshotTime }
  | .dump, [value] => (once draft.dump (readFile value)).map fun dump => { draft with dump }
  | .format, [value] =>
      (once draft.format (Format.ofName value)).map fun format => { draft with format }
  | .range, [first, last] =>
      (readTime first).bind fun first =>
        (readTime last).map fun last =>
          { draft with range := some (draft.range.getD [] ++ [first, last]) }
  | _, _ => none

/-- Only one file of events is given. -/
def Draft.setEvents (draft : Draft) (value : String) : Option Draft :=
  (once draft.events (readFile value)).map fun events => { draft with events }

/-- The arguments fit together: there is a file of events, a question about a path names it, and at
most one question is asked. -/
def Draft.finish (draft : Draft) : Option Options :=
  let questions :=
    [draft.pointTime.isSome, draft.range.isSome, draft.snapshotTime.isSome].count true
  let aboutPath := draft.pointTime.isSome || draft.range.isSome
  match draft.events with
  | none => none
  | some events =>
      if 1 < questions || (aboutPath && draft.path.isNone) then none
      else
        some
          { events
            stop := draft.stop
            config := draft.config
            strict := draft.strict
            path := draft.path
            pointTime := draft.pointTime
            range := draft.range
            snapshotTime := draft.snapshotTime
            dump := draft.dump
            format := draft.format.getD .text
            debug := draft.debug }

/-- The state between two arguments: an option may still wait for values, and after two dashes no
argument is an option. -/
structure Scan where
  draft : Draft
  waiting : Option (Key × List String)
  ended : Bool
  deriving DecidableEq

def Scan.start : Scan := ⟨.empty, none, false⟩

/-- After an argument the scan goes on, or the version is asked for. -/
inductive Progress where
  | more (scan : Scan)
  | version
  deriving DecidableEq

/-- A draft that changed, and nothing that waits. -/
def Scan.withDraft (scan : Scan) (draft : Option Draft) : Option Progress :=
  draft.map fun changed => .more { scan with draft := changed, waiting := none }

def Scan.setFlag (scan : Scan) : Flag → Option Progress
  | .strict =>
      if scan.draft.strict then none else scan.withDraft (some { scan.draft with strict := true })
  | .debug =>
      if scan.draft.debug then none else scan.withDraft (some { scan.draft with debug := true })
  | .version => some .version

/-- A value for an option that has some values already. -/
def Scan.addValue (scan : Scan) (key : Key) (values : List String) (value : String) :
    Option Progress :=
  let all := values ++ [value]
  if all.length = key.arity then scan.withDraft (scan.draft.set key all)
  else some (.more { scan with waiting := some (key, all) })

/-- An argument that begins with two dashes and a name. -/
def Scan.readLong (scan : Scan) (argument : List Char) : Option Progress :=
  let name := String.ofList (argument.takeWhile fun c => c ≠ '=')
  match argument.dropWhile (fun c => c ≠ '=') with
  | [] =>
      match Key.ofName name with
      | some key => some (.more { scan with waiting := some (key, []) })
      | none => (Flag.ofName name).bind scan.setFlag
  | _ :: value =>
      (Key.ofName name).bind fun key => scan.withDraft (scan.draft.set key [String.ofList value])

/-- An argument for which no option waits. -/
def Scan.readArgument (scan : Scan) (argument : String) : Option Progress :=
  match argument.toList with
  | ['-', '-'] => some (.more { scan with ended := true })
  | '-' :: '-' :: rest => scan.readLong rest
  | '-' :: 'V' :: _ => scan.setFlag .version
  | '-' :: _ :: _ => none
  | _ => scan.withDraft (scan.draft.setEvents argument)

/-- A lone dash is a value like any other. -/
def looksLikeOption (argument : String) : Bool :=
  match argument.toList with
  | '-' :: _ :: _ => true
  | _ => false

/-- The next argument; an option that waits for a value takes nothing that looks like an option. -/
def Scan.step (scan : Scan) (argument : String) : Option Progress :=
  if scan.ended then scan.withDraft (scan.draft.setEvents argument)
  else
    match scan.waiting with
    | some (key, values) =>
        if looksLikeOption argument then none else scan.addValue key values argument
    | none => scan.readArgument argument

/-- All arguments, of which those behind a request for the version do not count. -/
def Scan.run (scan : Scan) : List String → Option Command
  | [] => if scan.waiting.isSome then none else scan.draft.finish.map Command.run
  | argument :: rest =>
      match scan.step argument with
      | none => none
      | some .version => some .version
      | some (.more next) => next.run rest

/-- The command that the arguments ask for, if they ask for any. -/
def parse (arguments : List String) : Option Command := Scan.start.run arguments

end CommandLine

end Chronicle
