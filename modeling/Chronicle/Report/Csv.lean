import Chronicle.Report.Basic

/-!
Reports for tables: a heading and one record per row. A cell that holds a comma, a quote or a line
feed is quoted, and a quote within it is written twice.
-/

namespace Chronicle.Report.Csv

/-- A quote is written twice. -/
def doubleQuotes : List Char → List Char
  | [] => []
  | c :: rest => if c = '"' then '"' :: '"' :: doubleQuotes rest else c :: doubleQuotes rest

/-- These characters make a cell need quotes. -/
def needsQuotes (content : List Char) : Bool :=
  content.any fun c => c = ',' || c = '"' || c = '\n'

def cell (content : List Char) : List Char :=
  if needsQuotes content then '"' :: (doubleQuotes content ++ ['"']) else content

/-- A record is its cells with a comma between neighbours, and a line feed. -/
def record (cells : List String) : List Char :=
  [','].intercalate (cells.map fun content => cell content.toList) ++ ['\n']

/-- A table is its records one after another. -/
def table (rows : List (List String)) : String := String.ofList (rows.flatMap record)

/-- The content of a value; the kind beside it tells an absent value from an empty text. -/
def content : Value → String
  | .null => ""
  | value => value.display

def bound : Option Time → String
  | none => ""
  | some time => toString time

def spanHeading : List String := ["path", "start", "end", "type", "value"]

def spanRow (span : Span) : List String :=
  [span.path, toString span.start, toString span.stop, span.value.kind, content span.value]

/-- The table of spans. -/
def ofSpans (spans : List Span) : String := table (spanHeading :: spans.map spanRow)

def stateHeading : List String := ["path", "time", "type", "value"]

def stateRow (time : Time) (entry : String × Value) : List String :=
  [entry.1, toString time, entry.2.kind, content entry.2]

/-- The table of the states at one time. -/
def ofStates (time : Time) (states : List (String × Value)) : String :=
  table (stateHeading :: states.map (stateRow time))

def summaryHeading : List String :=
  ["events", "modifications", "updates", "ignored_updates", "attributes", "intervals",
    "start_time", "end_time"]

def summaryRow (summary : Summary) : List String :=
  [toString summary.events, toString summary.modifications, toString summary.updates,
    toString summary.ignoredUpdates, toString summary.attributes, toString summary.intervals,
    bound summary.startTime, bound summary.endTime]

def ofSummary (summary : Summary) : String := table [summaryHeading, summaryRow summary]

/-- The table of an answer. -/
def write (answer : Answer) (summary : Summary) : String :=
  match answer with
  | .summary => ofSummary summary
  | .point path time value => ofStates time [(path, value)]
  | .range path intervals => ofSpans (intervals.map (Span.ofInterval path))
  | .snapshot time states => ofStates time states

end Chronicle.Report.Csv
