import Chronicle.Json.Persist
import Chronicle.Json.Writer
import Chronicle.Report.Basic

/-!
Reports for programs: one JSON document with the summary and the answer.
-/

namespace Chronicle

/-- The counts are always there, and the times where they are known. -/
def Summary.toJson (summary : Summary) : Json :=
  .object
    ([("events", .natural summary.events), ("modifications", .natural summary.modifications),
      ("updates", .natural summary.updates),
      ("ignored_updates", .natural summary.ignoredUpdates),
      ("attributes", .natural summary.attributes), ("intervals", .natural summary.intervals)]
      ++ Json.whenPresent "start_time" Json.natural summary.startTime
      ++ Json.whenPresent "end_time" Json.natural summary.endTime)

def Summary.ofJson (document : Json) : Option Summary :=
  match document.fields
      [["events"], ["modifications"], ["updates"], ["ignored_updates"], ["attributes"],
        ["intervals"], ["start_time"], ["end_time"]] with
  | some [events, modifications, updates, ignoredUpdates, attributes, intervals, startTime,
      endTime] => do
      let events ← events.required Json.asNatural
      let modifications ← modifications.required Json.asNatural
      let updates ← updates.required Json.asNatural
      let ignoredUpdates ← ignoredUpdates.required Json.asNatural
      let attributes ← attributes.required Json.asNatural
      let intervals ← intervals.required Json.asNatural
      let startTime ← startTime.optional Json.asNatural
      let endTime ← endTime.optional Json.asNatural
      some ⟨events, modifications, updates, ignoredUpdates, attributes, intervals, startTime,
        endTime⟩
  | _ => none

namespace Report

def Point.toJson (point : Point) : Json :=
  .object
    [("path", .string point.path), ("time", .natural point.time), ("value", point.value.toJson)]

def Point.ofJson (document : Json) : Option Point :=
  match document.fields [["path"], ["time"], ["value"]] with
  | some [path, time, value] => do
      let path ← path.required Json.asString
      let time ← time.required Json.asNatural
      let value ← value.required Value.ofJson
      some ⟨path, time, value⟩
  | _ => none

def Span.toJson (span : Span) : Json :=
  .object
    [("path", .string span.path), ("start", .natural span.start), ("end", .natural span.stop),
      ("value", span.value.toJson)]

def Span.ofJson (document : Json) : Option Span :=
  match document.fields [["path"], ["start"], ["end"], ["value"]] with
  | some [path, start, stop, value] => do
      let path ← path.required Json.asString
      let start ← start.required Json.asNatural
      let stop ← stop.required Json.asNatural
      let value ← value.required Value.ofJson
      some ⟨path, start, stop, value⟩
  | _ => none

def States.toJson (states : States) : Json :=
  .object [("time", .natural states.time), ("attributes", states.attributes.toJson)]

def States.ofJson (document : Json) : Option States :=
  match document.fields [["time"], ["attributes"]] with
  | some [time, attributes] => do
      let time ← time.required Json.asNatural
      let attributes ← attributes.required Snapshot.ofJson
      some ⟨time, attributes⟩
  | _ => none

/-- A report document names its version and format, and has at most one kind of answer beside the
summary. -/
structure Document where
  version : String
  format : String
  summary : Summary
  point : Option Point
  intervals : Option (List Span)
  states : Option States
  deriving DecidableEq

/-- The version of the program. -/
def programVersion : String := "0.1.0"

/-- The version of the document format. -/
def documentFormat : String := "estado-json-v1"

def Document.ofSummary (summary : Summary) : Document :=
  ⟨programVersion, documentFormat, summary, none, none, none⟩

/-- The document of an answer; a range without intervals still has an empty list. -/
def Document.ofAnswer (answer : Answer) (summary : Summary) : Document :=
  let document := Document.ofSummary summary
  match answer with
  | .summary => document
  | .point path time value => { document with point := some ⟨path, time, value⟩ }
  | .range path intervals =>
      { document with intervals := some (intervals.map (Span.ofInterval path)) }
  | .snapshot time states => { document with states := some ⟨time, states⟩ }

def Document.toJson (document : Document) : Json :=
  .object
    ([("version", .string document.version), ("format", .string document.format),
      ("summary", document.summary.toJson)]
      ++ Json.whenPresent "point" Point.toJson document.point
      ++ Json.whenPresent "intervals" (fun spans => .list (spans.map Span.toJson))
          document.intervals
      ++ Json.whenPresent "full_state" States.toJson document.states)

def Document.ofJson (source : Json) : Option Document :=
  match source.fields
      [["version"], ["format"], ["summary"], ["point"], ["intervals"], ["full_state"]] with
  | some [version, format, summary, point, intervals, states] => do
      let version ← version.required Json.asString
      let format ← format.required Json.asString
      let summary ← summary.required Summary.ofJson
      let point ← point.optional Point.ofJson
      let intervals ← intervals.optional (Json.asList Span.ofJson)
      let states ← states.optional States.ofJson
      some ⟨version, format, summary, point, intervals, states⟩
  | _ => none

/-- The document in the pretty layout. -/
def Document.write (document : Document) : String := document.toJson.pretty

end Report

end Chronicle
