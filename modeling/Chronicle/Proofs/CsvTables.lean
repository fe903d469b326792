import Chronicle.Report.Csv
import Mathlib

/-!
Tables are unambiguous: a cell is read back up to the delimiter behind it, whatever it holds, so a
text is the table of one list of rows only, and a row shows one span or one state only.
-/

namespace Chronicle.Report.Csv

section Cells

/-- A comma ends a cell, and a line feed ends the last cell of a record. -/
def isDelimiter (c : Char) : Bool := c = ',' || c = '\n'

/-- Reading a quoted cell gives what it holds and what is behind its closing quote. -/
def readQuoted : List Char → List Char × List Char
  | [] => ([], [])
  | '"' :: '"' :: rest => ('"' :: (readQuoted rest).1, (readQuoted rest).2)
  | '"' :: rest => ([], rest)
  | c :: rest => (c :: (readQuoted rest).1, (readQuoted rest).2)

/-- A cell that begins with a quote is read as a quoted one, and any other one goes up to the next
delimiter. -/
def readCell : List Char → List Char × List Char
  | '"' :: rest => readQuoted rest
  | text => (text.takeWhile fun c => !isDelimiter c, text.dropWhile fun c => !isDelimiter c)

theorem readQuoted_plain {c : Char} (plain : c ≠ '"') (rest : List Char) :
    readQuoted (c :: rest) = (c :: (readQuoted rest).1, (readQuoted rest).2) := by
  rw [readQuoted]
  · intro others quote
    exact absurd quote plain
  · exact plain

/-- The closing quote of a cell is the first one that is not written twice. -/
theorem readQuoted_doubleQuotes (content : List Char) {delimiter : Char}
    (ends : isDelimiter delimiter = true) (rest : List Char) :
    readQuoted (doubleQuotes content ++ '"' :: delimiter :: rest) =
      (content, delimiter :: rest) := by
  have plain : delimiter ≠ '"' := by
    rintro rfl
    cases ends
  induction content with
  | nil =>
      rw [doubleQuotes, List.nil_append, readQuoted]
      intro more same
      exact plain (List.cons.inj same).1
  | cons c others ih =>
      rw [doubleQuotes]
      split_ifs with quote
      · subst quote
        rw [List.cons_append, List.cons_append, readQuoted, ih]
      · rw [List.cons_append, readQuoted_plain quote, ih]

theorem readCell_plain {text : List Char} (plain : text.head? ≠ some '"') :
    readCell text =
      (text.takeWhile fun c => !isDelimiter c, text.dropWhile fun c => !isDelimiter c) := by
  rw [readCell]
  intro rest same
  rw [same] at plain
  exact plain rfl

/-- A cell is read back up to the delimiter behind it. -/
theorem readCell_cell (content : List Char) {delimiter : Char}
    (ends : isDelimiter delimiter = true) (rest : List Char) :
    readCell (cell content ++ delimiter :: rest) = (content, delimiter :: rest) := by
  rw [cell]
  split_ifs with quoted
  · rw [List.cons_append, List.append_assoc, readCell]
    exact readQuoted_doubleQuotes content ends rest
  · have plain : ∀ c ∈ content, isDelimiter c = false ∧ c ≠ '"' := by
      intro c member
      simp only [needsQuotes, List.any_eq_true, not_exists, not_and] at quoted
      have own := quoted c member
      simp only [Bool.or_eq_true, decide_eq_true_eq, not_or] at own
      simp [isDelimiter, own]
    have before : ∀ c ∈ content, (!isDelimiter c) = true := fun c member => by
      rw [(plain c member).1]
      rfl
    have first : (content ++ delimiter :: rest).head? ≠ some '"' := by
      cases content with
      | nil =>
          rintro ⟨rfl⟩
          cases ends
      | cons c others =>
          rintro ⟨rfl⟩
          exact (plain '"' List.mem_cons_self).2 rfl
    rw [readCell_plain first, List.takeWhile_append_of_pos before,
      List.dropWhile_append_of_pos before]
    simp [ends]

end Cells

section Tables

/-- Behind the first cell of a record comes the rest of the record. -/
theorem record_cons (first : String) (rest : List String) :
    record (first :: rest) =
      cell first.toList ++ if rest = [] then ['\n'] else ',' :: record rest := by
  cases rest with
  | nil => simp [record]
  | cons second others => simp [record, List.intercalate_cons_cons]

/-- The first cell of a record is read back, and what is behind it tells whether more cells follow. -/
theorem readCell_record (first : String) (rest : List String) (text : List Char) :
    readCell (record (first :: rest) ++ text) =
      (first.toList, if rest = [] then '\n' :: text else ',' :: (record rest ++ text)) := by
  rw [record_cons]
  split_ifs with last
  · rw [List.append_assoc, List.singleton_append]
    exact readCell_cell first.toList (by decide : isDelimiter '\n' = true) text
  · rw [List.append_assoc, List.cons_append]
    exact readCell_cell first.toList (by decide : isDelimiter ',' = true) (record rest ++ text)

/-- A text begins with one record only. -/
theorem record_append_inj {cells others : List String} (filled : cells ≠ []) (full : others ≠ [])
    {text rest : List Char} (same : record cells ++ text = record others ++ rest) :
    cells = others ∧ text = rest := by
  induction cells generalizing others with
  | nil => exact absurd rfl filled
  | cons first cells ih =>
      obtain ⟨other, others, rfl⟩ := List.exists_cons_of_ne_nil full
      have read := congrArg readCell same
      rw [readCell_record, readCell_record, Prod.mk.injEq, String.toList_inj] at read
      obtain ⟨rfl, behind⟩ := read
      -- The delimiter behind the first cell tells whether both records end here.
      by_cases last : cells = [] <;> by_cases final : others = []
      · rw [if_pos last, if_pos final] at behind
        rw [last, final]
        exact ⟨rfl, (List.cons.inj behind).2⟩
      · rw [if_pos last, if_neg final] at behind
        cases (List.cons.inj behind).1
      · rw [if_neg last, if_pos final] at behind
        cases (List.cons.inj behind).1
      · rw [if_neg last, if_neg final] at behind
        obtain ⟨rfl, equal⟩ := ih last final (List.cons.inj behind).2
        exact ⟨rfl, equal⟩

theorem record_ne_nil (cells : List String) : record cells ≠ [] := by
  simp [record]

/-- A text is the table of one list of rows only. -/
theorem table_inj {rows others : List (List String)} (filled : ∀ row ∈ rows, row ≠ [])
    (full : ∀ row ∈ others, row ≠ []) (same : table rows = table others) : rows = others := by
  have text : rows.flatMap record = others.flatMap record := String.ofList_injective same
  clear same
  induction rows generalizing others with
  | nil =>
      cases others with
      | nil => rfl
      | cons other others =>
          rw [List.flatMap_cons] at text
          exact absurd (List.append_eq_nil_iff.mp text.symm).1 (record_ne_nil other)
  | cons row rows ih =>
      obtain ⟨here, later⟩ := List.forall_mem_cons.mp filled
      cases others with
      | nil =>
          rw [List.flatMap_cons] at text
          exact absurd (List.append_eq_nil_iff.mp text).1 (record_ne_nil row)
      | cons other others =>
          obtain ⟨there, behind⟩ := List.forall_mem_cons.mp full
          rw [List.flatMap_cons, List.flatMap_cons] at text
          obtain ⟨rfl, rest⟩ := record_append_inj here there text
          rw [ih later behind rest]

/-- Below one heading, a text shows one list of rows only. -/
theorem entries_inj {Entry : Type} {heading : List String} {row form : Entry → List String}
    (titled : heading ≠ []) (filled : ∀ entry, row entry ≠ []) (full : ∀ entry, form entry ≠ [])
    {entries others : List Entry}
    (same : table (heading :: entries.map row) = table (heading :: others.map form)) :
    entries.map row = others.map form := by
  have whole : heading :: entries.map row = heading :: others.map form := by
    refine table_inj ?_ ?_ same
    · exact List.forall_mem_cons.mpr ⟨titled, List.forall_mem_map.mpr fun entry _ => filled entry⟩
    · exact List.forall_mem_cons.mpr ⟨titled, List.forall_mem_map.mpr fun entry _ => full entry⟩
  exact (List.cons.inj whole).2

end Tables

section Rows

theorem toString_time_inj {time other : Time} (same : toString time = toString other) :
    time = other := by
  rwa [Nat.toString_eq_repr, Nat.toString_eq_repr, Nat.repr_inj] at same

theorem toString_int_inj {number other : Int} (same : toString number = toString other) :
    number = other := by
  rwa [Int.toString_eq_repr, Int.toString_eq_repr, Int.repr_inj] at same

/-- The kind and the content tell a value. -/
theorem value_inj {value other : Value} (kind : value.kind = other.kind)
    (same : content value = content other) : value = other := by
  cases value <;> cases other <;> simp [Value.kind] at kind
  case null.null => rfl
  case int.int number second =>
    have numbers : number.toInt = second.toInt := toString_int_inj same
    rw [Int32.toInt_inj.mp numbers]
  case long.long number second =>
    have numbers : number.toInt = second.toInt := toString_int_inj same
    rw [Int64.toInt_inj.mp numbers]
  case text.text written second => exact congrArg Value.text same

theorem spanRow_injective : Function.Injective spanRow := by
  intro span other same
  obtain ⟨path, start, stop, value⟩ := span
  obtain ⟨otherPath, otherStart, otherStop, otherValue⟩ := other
  simp only [spanRow, List.cons.injEq] at same
  obtain ⟨rfl, starts, stops, kind, held, _⟩ := same
  rw [toString_time_inj starts, toString_time_inj stops, value_inj kind held]

/-- A row shows its state and the time. -/
theorem stateRow_inj {time later : Time} {entry other : String × Value}
    (same : stateRow time entry = stateRow later other) : time = later ∧ entry = other := by
  simp only [stateRow, List.cons.injEq] at same
  obtain ⟨path, times, kind, held, _⟩ := same
  exact ⟨toString_time_inj times, Prod.ext path (value_inj kind held)⟩

end Rows

/-- A table of spans shows one list of spans only. A table of states with at least one row shows one
time and one list of states only. This holds of all paths and texts, whatever they are made of. -/
theorem unambiguous :
    (∀ spans others : List Span, ofSpans spans = ofSpans others → spans = others) ∧
    ∀ (time later : Time) (states others : List (String × Value)), states ≠ [] →
      ofStates time states = ofStates later others → time = later ∧ states = others := by
  constructor
  · intro spans others same
    have rows : spans.map spanRow = others.map spanRow :=
      entries_inj (List.cons_ne_nil _ _) (fun _ => List.cons_ne_nil _ _)
        (fun _ => List.cons_ne_nil _ _) same
    exact spanRow_injective.list_map rows
  · intro time later states others nonempty same
    have rows : states.map (stateRow time) = others.map (stateRow later) :=
      entries_inj (List.cons_ne_nil _ _) (fun _ => List.cons_ne_nil _ _)
        (fun _ => List.cons_ne_nil _ _) same
    obtain ⟨entry, rest, rfl⟩ := List.exists_cons_of_ne_nil nonempty
    cases others with
    | nil => cases rows
    | cons other behind =>
        obtain ⟨rfl, _⟩ := stateRow_inj (List.cons.inj rows).1
        have injective : Function.Injective (stateRow time) := fun first second equal =>
          (stateRow_inj equal).2
        exact ⟨rfl, injective.list_map rows⟩

/-- A path cannot be made to look like another row, nor a text like a number or an absent value. The
table of a snapshot shows its states in their order. -/
theorem unambiguous_of_crafted :
    ofSpans [⟨"lane,0,4,int,1\nother", 4, 9, .int 5⟩] ≠
        ofSpans [⟨"lane", 0, 4, .int 1⟩, ⟨"other", 4, 9, .int 5⟩] ∧
      ofSpans [⟨"lane", 0, 4, .text "5"⟩] ≠ ofSpans [⟨"lane", 0, 4, .int 5⟩] ∧
      ofStates 7 [("lane", .text "")] ≠ ofStates 7 [("lane", .null)] ∧
      ofStates 7 (Snapshot.ofList [("b", .text "x\ny"), ("a", .null)]) =
        ofStates 7 [("a", .null), ("b", .text "x\ny")] ∧
      Snapshot.ofList [("b", .text "x\ny"), ("a", .null)] =
        [("a", .null), ("b", .text "x\ny")] := by
  have sorted : ofStates 7 (Snapshot.ofList [("b", .text "x\ny"), ("a", .null)]) =
      ofStates 7 [("a", .null), ("b", .text "x\ny")] := by decide
  refine ⟨fun same => ?_, fun same => ?_, fun same => ?_, sorted, ?_⟩
  · have rows := congrArg List.length (unambiguous.1 _ _ same)
    cases rows
  · have rows := unambiguous.1 _ _ same
    cases rows
  · have rows := (unambiguous.2 7 7 _ _ (List.cons_ne_nil _ _) same).2
    cases rows
  · exact (unambiguous.2 7 7 _ _ (List.cons_ne_nil _ _) sorted.symm).2.symm

end Chronicle.Report.Csv
