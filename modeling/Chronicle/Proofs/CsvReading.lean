import Chronicle.Proofs.CsvTables

/-!
Tables are readable: a reader that goes through a table character by character gets its records back
cell by cell. Only a text that ends with a carriage return and is not quoted loses that character, which
the reader takes for a part of the line break.
-/

namespace Chronicle.Report.Csv

section Reader

/-- A reader is about to begin a cell, within a plain one, within quotes, behind a quote within quotes,
or behind a carriage return that follows the closing quote. -/
inductive Place where
  | fresh
  | plain
  | quoted
  | closing
  | returned
  deriving DecidableEq

/-- A reader has complete records, complete cells of the next record, and what it read of the next
cell. -/
structure Reader where
  records : List (List String)
  cells : List String
  content : List Char
  place : Place
  deriving DecidableEq

def Reader.start : Reader := ⟨[], [], [], .fresh⟩

/-- The next cell is complete. -/
def Reader.closeCell (reader : Reader) (content : List Char) : Reader :=
  ⟨reader.records, reader.cells ++ [String.ofList content], [], .fresh⟩

/-- The next cell is the last one of its record. -/
def Reader.closeRecord (reader : Reader) (content : List Char) : Reader :=
  ⟨reader.records ++ [reader.cells ++ [String.ofList content]], [], [], .fresh⟩

/-- A carriage return before a line feed belongs to the line break. -/
def dropReturn (content : List Char) : List Char :=
  if content.getLast? = some '\r' then content.dropLast else content

/-- A plain cell is taken as it stands, up to the next comma or line break. -/
def Reader.readPlain (reader : Reader) (c : Char) : Reader :=
  if c = ',' then reader.closeCell reader.content
  else if c = '\n' then reader.closeRecord (dropReturn reader.content)
  else { reader with content := reader.content ++ [c], place := .plain }

/-- A quote within quotes is written twice, or it closes the cell and the next comma or line break
follows. -/
def Reader.readClosing (reader : Reader) (c : Char) : Option Reader :=
  if c = '"' then some { reader with content := reader.content ++ ['"'], place := .quoted }
  else if c = ',' then some (reader.closeCell reader.content)
  else if c = '\n' then some (reader.closeRecord reader.content)
  else if c = '\r' then some { reader with place := .returned }
  else none

/-- One character, which the reader may refuse. -/
def Reader.step (reader : Reader) (c : Char) : Option Reader :=
  match reader.place with
  | .fresh =>
      if c = '"' then some { reader with place := .quoted } else some (reader.readPlain c)
  | .plain => some (reader.readPlain c)
  | .quoted =>
      if c = '"' then some { reader with place := .closing }
      else some { reader with content := reader.content ++ [c] }
  | .closing => reader.readClosing c
  | .returned => if c = '\n' then some (reader.closeRecord reader.content) else none

/-- The last record needs no line break behind it, but all quotes have to be closed. -/
def Reader.finish (reader : Reader) : Option (List (List String)) :=
  match reader.place with
  | .fresh =>
      if reader.cells = [] then some reader.records else some (reader.closeRecord []).records
  | .plain | .closing => some (reader.closeRecord reader.content).records
  | .quoted | .returned => none

/-- Characters one after another. -/
def Reader.run (reader : Reader) (text : List Char) : Option Reader := text.foldlM Reader.step reader

/-- The records of a text. -/
def readTable (text : String) : Option (List (List String)) :=
  (Reader.start.run text.toList).bind Reader.finish

@[simp] theorem Reader.run_nil (reader : Reader) : reader.run [] = some reader := rfl

@[simp] theorem Reader.run_cons (reader : Reader) (c : Char) (rest : List Char) :
    reader.run (c :: rest) = (reader.step c).bind fun next => next.run rest := rfl

theorem Reader.run_append (reader : Reader) (text rest : List Char) :
    reader.run (text ++ rest) = (reader.run text).bind fun next => next.run rest :=
  List.foldlM_append

end Reader

section Cells

variable {records : List (List String)} {cells : List String} {before content : List Char}
  {place : Place}

/-- What is read of the last cell of a record: a plain cell that ends with a carriage return loses it to
the line break. -/
def lastRead (content : List Char) : List Char :=
  if needsQuotes content then content else dropReturn content

/-- Outside of quotes a character other than a quote begins a plain cell or goes on with it. -/
theorem Reader.step_plain (outside : place = .fresh ∨ place = .plain) {c : Char} (plain : c ≠ '"') :
    Reader.step ⟨records, cells, before, place⟩ c =
      some (Reader.readPlain ⟨records, cells, before, place⟩ c) := by
  rcases outside with rfl | rfl
  · simp only [Reader.step, if_neg plain]
  · rfl

/-- A cell that needs no quotes is read as a plain one. If it is empty, it has yet to begin. -/
theorem Reader.run_plain (records : List (List String)) (cells : List String) (before : List Char)
    (outside : place = .fresh ∨ place = .plain) (plain : needsQuotes content = false) :
    ∃ next, (next = .fresh ∨ next = .plain) ∧
      Reader.run ⟨records, cells, before, place⟩ content =
        some ⟨records, cells, before ++ content, next⟩ := by
  induction content generalizing before place with
  | nil => exact ⟨place, outside, by simp⟩
  | cons c rest ih =>
      simp only [needsQuotes, List.any_cons, Bool.or_eq_false_iff, decide_eq_false_iff_not]
        at plain
      obtain ⟨⟨⟨comma, quote⟩, feed⟩, others⟩ := plain
      obtain ⟨next, free, read⟩ := ih (before ++ [c]) (Or.inr rfl) others
      refine ⟨next, free, ?_⟩
      rw [Reader.run_cons, Reader.step_plain outside quote, Option.bind_some, Reader.readPlain,
        if_neg comma, if_neg feed, read, List.append_assoc, List.singleton_append]

/-- Within quotes every character is taken, and a quote that is written twice is taken once. -/
theorem Reader.run_quoted (content : List Char) :
    Reader.run ⟨records, cells, before, .quoted⟩ (doubleQuotes content) =
      some ⟨records, cells, before ++ content, .quoted⟩ := by
  induction content generalizing before with
  | nil => simp [doubleQuotes]
  | cons c rest ih =>
      have taken : before ++ c :: rest = before ++ [c] ++ rest := by simp
      rw [doubleQuotes, taken]
      split_ifs with quote
      · subst quote
        exact ih
      · have next : Reader.step ⟨records, cells, before, .quoted⟩ c =
            some ⟨records, cells, before ++ [c], .quoted⟩ := if_neg quote
        rw [Reader.run_cons, next]
        exact ih

/-- A comma behind a cell completes it as it is. -/
theorem Reader.run_cell_comma (content : List Char) (rest : List Char) :
    Reader.run ⟨records, cells, [], .fresh⟩ (cell content ++ ',' :: rest) =
      Reader.run ⟨records, cells ++ [String.ofList content], [], .fresh⟩ rest := by
  rw [cell]
  split_ifs with quoted
  · rw [List.cons_append, List.append_assoc, Reader.run_cons]
    change Reader.run ⟨records, cells, [], .quoted⟩ _ = _
    rw [Reader.run_append, Reader.run_quoted]
    rfl
  · obtain ⟨next, outside, read⟩ := Reader.run_plain records cells [] (Or.inl rfl)
      (Bool.eq_false_of_not_eq_true quoted)
    rw [Reader.run_append, read, Option.bind_some, Reader.run_cons,
      Reader.step_plain outside (by decide)]
    rfl

/-- A line feed behind a cell completes its record. -/
theorem Reader.run_cell_feed (content : List Char) (rest : List Char) :
    Reader.run ⟨records, cells, [], .fresh⟩ (cell content ++ '\n' :: rest) =
      Reader.run ⟨records ++ [cells ++ [String.ofList (lastRead content)]], [], [], .fresh⟩
        rest := by
  rw [cell, lastRead]
  split_ifs with quoted
  · rw [List.cons_append, List.append_assoc, Reader.run_cons]
    change Reader.run ⟨records, cells, [], .quoted⟩ _ = _
    rw [Reader.run_append, Reader.run_quoted]
    rfl
  · obtain ⟨next, outside, read⟩ := Reader.run_plain records cells [] (Or.inl rfl)
      (Bool.eq_false_of_not_eq_true quoted)
    rw [Reader.run_append, read, Option.bind_some, Reader.run_cons,
      Reader.step_plain outside (by decide)]
    rfl

end Cells

section Tables

variable {records : List (List String)}

/-- What is read of the cells of a record. -/
def received : List String → List String
  | [] => []
  | [last] => [String.ofList (lastRead last.toList)]
  | first :: second :: rest => first :: received (second :: rest)

/-- A record is read cell by cell up to its end. -/
theorem Reader.run_record {row : List String} (filled : row ≠ []) (former : List String)
    (rest : List Char) :
    Reader.run ⟨records, former, [], .fresh⟩ (record row ++ rest) =
      Reader.run ⟨records ++ [former ++ received row], [], [], .fresh⟩ rest := by
  induction row generalizing former with
  | nil => exact absurd rfl filled
  | cons first others ih =>
      rw [record_cons]
      cases others with
      | nil =>
          rw [if_pos rfl, List.append_assoc, List.singleton_append, Reader.run_cell_feed, received]
      | cons second rest =>
          rw [if_neg (List.cons_ne_nil _ _), List.append_assoc, List.cons_append,
            Reader.run_cell_comma, ih (List.cons_ne_nil _ _), received, String.ofList_toList,
            List.append_assoc, List.singleton_append]

/-- The records of a table are read one after another. -/
theorem Reader.run_records {rows : List (List String)} (filled : ∀ row ∈ rows, row ≠ []) :
    Reader.run ⟨records, [], [], .fresh⟩ (rows.flatMap record) =
      some ⟨records ++ rows.map received, [], [], .fresh⟩ := by
  induction rows generalizing records with
  | nil => simp
  | cons row rows ih =>
      obtain ⟨here, later⟩ := List.forall_mem_cons.mp filled
      rw [List.flatMap_cons, Reader.run_record here, ih later, List.nil_append, List.map_cons,
        List.append_assoc, List.singleton_append]

theorem readTable_table {rows : List (List String)} (filled : ∀ row ∈ rows, row ≠ []) :
    readTable (table rows) = some (rows.map received) := by
  rw [readTable, table, String.toList_ofList, Reader.start, Reader.run_records filled]
  rfl

end Tables

section Rows

/-- The text of a value is clipped when it ends with a carriage return and nothing in it makes its cell
quoted. -/
def Clipped (value : Value) : Prop :=
  ∃ text, value = .text text ∧ needsQuotes text.toList = false ∧ text.toList.getLast? = some '\r'

/-- The last cell of a row as it is read. -/
def contentRead (value : Value) : String := String.ofList (lastRead (content value).toList)

theorem return_not_mem_repr (number : Int) : '\r' ∉ number.repr.toList := by
  have digits (number : Nat) : '\r' ∉ Nat.toDigits 10 number := by
    intro member
    have digit := Nat.isDigit_of_mem_toDigits (by decide) (by decide) member
    cases digit
  rw [Int.repr_eq_if]
  split_ifs
  · rw [Nat.toList_repr]
    exact digits _
  · rw [String.toList_append, Nat.toList_repr, List.mem_append, not_or]
    exact ⟨by decide, digits _⟩

theorem dropReturn_eq_self_iff (content : List Char) :
    dropReturn content = content ↔ content.getLast? ≠ some '\r' := by
  rw [dropReturn]
  split_ifs with ends
  · have nonempty : content ≠ [] := by
      rintro rfl
      cases ends
    have shorter : content.dropLast ≠ content := by
      intro same
      have lengths := congrArg List.length same
      rw [List.length_dropLast] at lengths
      have positive := List.length_pos_iff.mpr nonempty
      omega
    exact iff_of_false shorter (not_not_intro ends)
  · exact iff_of_true rfl ends

/-- The last cell of a row is read as it was given exactly when it is not clipped. -/
theorem contentRead_eq_iff (value : Value) : contentRead value = content value ↔ ¬Clipped value := by
  have kept : contentRead value = content value ↔
      ¬(needsQuotes (content value).toList = false ∧
        (content value).toList.getLast? = some '\r') := by
    rw [contentRead, ← String.toList_inj, String.toList_ofList, lastRead]
    split_ifs with quoted
    · simp [quoted]
    · rw [dropReturn_eq_self_iff]
      simp [quoted]
  rw [kept, not_iff_not]
  have number (number : Int) : ¬number.repr.toList.getLast? = some '\r' := fun ends =>
    return_not_mem_repr number (List.mem_of_getLast? ends)
  cases value with
  | null => simp [Clipped, content]
  | int held => simp [Clipped, content, Value.display, number]
  | long held => simp [Clipped, content, Value.display, number]
  | text held => simp [Clipped, content, Value.display]

/-- Below a heading, rows are read as they were given exactly when none of their values is clipped. -/
theorem readTable_entries {Entry : Type} {heading : List String} {row read : Entry → List String}
    {value : Entry → Value} (titled : heading ≠ []) (kept : received heading = heading)
    (filled : ∀ entry, row entry ≠ []) (reads : ∀ entry, received (row entry) = read entry)
    (whole : ∀ entry, read entry = row entry ↔ ¬Clipped (value entry)) (entries : List Entry) :
    readTable (table (heading :: entries.map row)) = some (heading :: entries.map read) ∧
      (readTable (table (heading :: entries.map row)) = some (heading :: entries.map row) ↔
        ∀ entry ∈ entries, ¬Clipped (value entry)) := by
  have records : readTable (table (heading :: entries.map row)) =
      some (heading :: entries.map read) := by
    rw [readTable_table (List.forall_mem_cons.mpr
      ⟨titled, List.forall_mem_map.mpr fun entry _ => filled entry⟩), List.map_cons, kept,
      List.map_map]
    congr 2
    exact List.map_congr_left fun entry _ => reads entry
  refine ⟨records, ?_⟩
  rw [records, Option.some.injEq, List.cons.injEq, List.map_inj_left]
  simp only [whole, true_and]

end Rows

/-- A reader gets the heading of a table and then one record for each row, with the path, the times in
decimal, the kind of the value and what it reads of its text. It gets every text as it was given exactly
when no value is clipped: a text that ends with a carriage return and holds no comma, quote or line feed
is written without quotes, and loses the carriage return to the line break. -/
theorem readable (spans : List Span) (time : Time) (states : List (String × Value)) :
    (readTable (ofSpans spans) = some (["path", "start", "end", "type", "value"] ::
        spans.map fun span => [span.path, toString span.start, toString span.stop, span.value.kind,
          contentRead span.value]) ∧
      (readTable (ofSpans spans) = some (["path", "start", "end", "type", "value"] ::
          spans.map fun span => [span.path, toString span.start, toString span.stop,
            span.value.kind, content span.value]) ↔
        ∀ span ∈ spans, ¬Clipped span.value)) ∧
    readTable (ofStates time states) = some (["path", "time", "type", "value"] ::
        states.map fun entry => [entry.1, toString time, entry.2.kind, contentRead entry.2]) ∧
      (readTable (ofStates time states) = some (["path", "time", "type", "value"] ::
          states.map fun entry => [entry.1, toString time, entry.2.kind, content entry.2]) ↔
        ∀ entry ∈ states, ¬Clipped entry.2) := by
  constructor
  · have whole (span : Span) : [span.path, toString span.start, toString span.stop,
        span.value.kind, contentRead span.value] = spanRow span ↔ ¬Clipped span.value := by
      rw [← contentRead_eq_iff]
      simp [spanRow]
    exact readTable_entries (List.cons_ne_nil _ _) (by decide) (fun _ => List.cons_ne_nil _ _)
      (fun _ => rfl) whole spans
  · have whole (entry : String × Value) : [entry.1, toString time, entry.2.kind,
        contentRead entry.2] = stateRow time entry ↔ ¬Clipped entry.2 := by
      rw [← contentRead_eq_iff]
      simp [stateRow]
    exact readTable_entries (List.cons_ne_nil _ _) (by decide) (fun _ => List.cons_ne_nil _ _)
      (fun _ => rfl) whole states

/-- The text of a value that ends with a carriage return is read without it. -/
theorem return_lost :
    readTable (ofStates 1 [("lane", .text "busy\r")]) =
        some [["path", "time", "type", "value"], ["lane", "1", "string", "busy"]] ∧
      readTable (ofStates 1 [("lane", .text "busy\r")]) ≠
        some [["path", "time", "type", "value"], ["lane", "1", "string", "busy\r"]] := by
  decide

end Chronicle.Report.Csv
