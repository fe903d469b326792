import Chronicle.Proofs.StreamLines
import Mathlib.Data.List.Forall2
import Mathlib.Data.List.ReduceOption
import Mathlib.Data.List.TakeWhile

/-!
What the lines of any bytes yield. A stream is cut at its line feeds, and every line yields what its own
bytes and its number say, whatever stands on the other lines. A reader that pulls items one at a time
skips lines that yield nothing, counts all of them, and comes to an end.
-/

namespace Chronicle

namespace Text

/-- A text has the words between its outer blanks. -/
structure Trims (content words : List Char) : Prop where
  around : ∃ before behind, content = before ++ words ++ behind ∧
    (∀ c ∈ before, isBlank c = true) ∧ ∀ c ∈ behind, isBlank c = true
  begun : ∀ c, words.head? = some c → isBlank c = false
  ended : ∀ c, words.getLast? = some c → isBlank c = false

theorem isBlank_of_head?_dropWhile {content : List Char} {c : Char}
    (first : (content.dropWhile isBlank).head? = some c) : isBlank c = false := by
  have visible := List.head?_dropWhile_not isBlank content
  rw [first] at visible
  exact visible

/-- Trimming leaves what stands between the outer blanks. -/
theorem trims_trim (content : List Char) : Trims content (trim content) := by
  have front : content.takeWhile isBlank ++ content.dropWhile isBlank = content :=
    List.takeWhile_append_dropWhile
  have back : trim content ++ ((content.dropWhile isBlank).reverse.takeWhile isBlank).reverse =
      content.dropWhile isBlank := by
    rw [trim, ← List.reverse_append, List.takeWhile_append_dropWhile, List.reverse_reverse]
  constructor
  case around =>
    refine ⟨content.takeWhile isBlank,
      ((content.dropWhile isBlank).reverse.takeWhile isBlank).reverse, ?_, ?_, ?_⟩
    · rw [List.append_assoc, back, front]
    · exact fun c member => List.mem_takeWhile_imp member
    · exact fun c member => List.mem_takeWhile_imp (List.mem_reverse.mp member)
  case begun =>
    intro c first
    have heads : (content.dropWhile isBlank).head? = some c := by
      rw [← back, List.head?_append, first, Option.some_or]
    exact isBlank_of_head?_dropWhile heads
  case ended =>
    intro c last
    rw [trim, List.getLast?_reverse] at last
    exact isBlank_of_head?_dropWhile last

/-- Only one text is left between the outer blanks. -/
theorem Trims.eq_trim {content words : List Char} (trims : Trims content words) :
    words = trim content := by
  obtain ⟨before, behind, rfl, former, latter⟩ := trims.around
  have begun := trims.begun
  have ended := trims.ended
  cases words with
  | nil =>
      rw [List.append_nil, trim_of_blank]
      intro c member
      rcases List.mem_append.mp member with early | late
      · exact former c early
      · exact latter c late
  | cons c rest =>
      have trailing : ∀ c ∈ behind.reverse, isBlank c = true := fun c member =>
        latter c (List.mem_reverse.mp member)
      have kept : rest.reverse.dropWhile isBlank = rest.reverse := by
        cases reversed : rest.reverse with
        | nil => rfl
        | cons last others =>
            have final : (c :: rest).getLast? = some last := by
              rw [List.getLast?_cons, ← List.head?_reverse, reversed]
              rfl
            exact List.dropWhile_cons_of_neg (by simp [ended last final])
      rw [List.append_assoc, List.cons_append, trim_append_cons former (begun c rfl),
        List.reverse_append, List.dropWhile_append_of_pos trailing, kept, List.reverse_reverse]

end Text

namespace EventStream

/-- The lines of the pieces between line feeds. Behind the last line feed there is no line unless
something stands there. -/
def linesOf : List (List UInt8) → List (List UInt8)
  | [] => []
  | [last] => if last = [] then [] else [last]
  | piece :: next :: rest => dropReturn piece :: linesOf (next :: rest)

theorem linesFrom_eq (current bytes : List UInt8) :
    linesFrom current bytes =
      linesOf ((bytes.splitOn lineFeed).modifyHead fun piece => current.reverse ++ piece) := by
  induction bytes generalizing current with
  | nil => cases current <;> simp [linesFrom, linesOf]
  | cons byte rest ih =>
      obtain ⟨piece, others, split⟩ :=
        List.exists_cons_of_ne_nil (List.splitOn_ne_nil lineFeed rest)
      rw [linesFrom, ih, ih]
      rw [List.splitOn] at split ⊢
      rw [List.splitOn, List.splitOnP_cons_eq_if_modifyHead, split]
      by_cases feed : byte = lineFeed <;> simp [feed, linesOf]

theorem linesOf_append_singleton (fed : List (List UInt8)) (last : List UInt8) :
    linesOf (fed ++ [last]) = fed.map dropReturn ++ if last = [] then [] else [last] := by
  induction fed with
  | nil => rfl
  | cons piece rest ih =>
      cases rest with
      | nil => rfl
      | cons next others => simpa [linesOf] using ih

/-- Every piece before a line feed is a line, without a carriage return at its end, and so is the last
piece if it is not empty. -/
theorem lines_eq (bytes : List UInt8) :
    ∃ fed last, bytes.splitOn lineFeed = fed ++ [last] ∧
      lines bytes = fed.map dropReturn ++ if last = [] then [] else [last] := by
  have pieces := List.dropLast_append_getLast (List.splitOn_ne_nil lineFeed bytes)
  refine ⟨_, _, pieces.symm, ?_⟩
  have whole : (bytes.splitOn lineFeed).modifyHead (fun piece => [].reverse ++ piece) =
      bytes.splitOn lineFeed := by
    cases bytes.splitOn lineFeed <;> rfl
  rw [lines, linesFrom_eq, whole, ← linesOf_append_singleton, pieces]

/-- What a line with a number may yield: an error if it is no text, nothing if the text is blank or a
comment, and else an event or an error. -/
inductive Yields (number : Nat) (line : List UInt8) : Option (Except StreamError Event) → Prop
  | unreadable (broken : ∀ content, Text.toBytes content ≠ line) :
      Yields number line (some (.error (.unreadable number)))
  | skipped {content : String} {words : List Char} (text : Text.toBytes content = line)
      (trims : Text.Trims content.toList words) (mute : words = [] ∨ words.head? = some '#') :
      Yields number line none
  | event {content : String} {words : List Char} {event : Event}
      (text : Text.toBytes content = line) (trims : Text.Trims content.toList words)
      (speaks : ¬(words = [] ∨ words.head? = some '#'))
      (decoded : (Json.readChars words).bind Event.ofJson = some event) :
      Yields number line (some (.ok event))
  | invalid {content : String} {words : List Char} (text : Text.toBytes content = line)
      (trims : Text.Trims content.toList words)
      (speaks : ¬(words = [] ∨ words.head? = some '#'))
      (refused : (Json.readChars words).bind Event.ofJson = none) :
      Yields number line (some (.error (.invalid number)))

theorem yields_readLine (number : Nat) (line : List UInt8) :
    Yields number line (readLine number line) := by
  rw [readLine, decodeLine]
  cases read : Text.ofBytes line with
  | none =>
      apply Yields.unreadable
      rintro content rfl
      rw [Text.ofBytes_toBytes] at read
      cases read
  | some content =>
      have text := (Text.toBytes_of_ofBytes read).symm
      have trims := Text.trims_trim content.toList
      simp only [Option.map_some]
      split_ifs with mute
      · exact .skipped text trims mute
      · cases decoded : (Json.readChars (Text.trim content.toList)).bind Event.ofJson with
        | none => exact .invalid text trims mute decoded
        | some event => exact .event text trims mute decoded

/-- The bytes and the number of a line tell what it yields. -/
theorem Yields.eq_readLine {number : Nat} {line : List UInt8}
    {yielded : Option (Except StreamError Event)} (yields : Yields number line yielded) :
    yielded = readLine number line := by
  rw [readLine, decodeLine]
  cases yields with
  | unreadable broken =>
      cases read : Text.ofBytes line with
      | none => rfl
      | some content => exact absurd (Text.toBytes_of_ofBytes read).symm (broken content)
  | skipped text trims mute =>
      rw [← text, Text.ofBytes_toBytes]
      simp only [Option.map_some, ← trims.eq_trim, if_pos mute]
  | event text trims speaks decoded =>
      rw [← text, Text.ofBytes_toBytes]
      simp only [Option.map_some, ← trims.eq_trim, if_neg speaks, decoded]
  | invalid text trims speaks refused =>
      rw [← text, Text.ofBytes_toBytes]
      simp only [Option.map_some, ← trims.eq_trim, if_neg speaks, refused]

/-- A reader has the lines that are left, and the number of those behind it. -/
structure LineReader where
  left : List (List UInt8)
  passed : Nat

def LineReader.start (bytes : List UInt8) : LineReader := ⟨lines bytes, 0⟩

/-- The first item from the given lines on. Lines that yield nothing are skipped and counted. -/
def LineReader.pull : List (List UInt8) → Nat → Option (Except StreamError Event × LineReader)
  | [], _ => none
  | line :: rest, passed =>
      match readLine (passed + 1) line with
      | some item => some (item, ⟨rest, passed + 1⟩)
      | none => pull rest (passed + 1)

/-- The next item, and the reader behind its line. -/
def LineReader.next (reader : LineReader) : Option (Except StreamError Event × LineReader) :=
  pull reader.left reader.passed

/-- Pulled one by one, the reader gives these items and then no more. -/
inductive LineReader.Drains : LineReader → List (Except StreamError Event) → Prop
  | ended {reader : LineReader} (none : reader.next = none) : Drains reader []
  | item {reader rest : LineReader} {item : Except StreamError Event}
      {items : List (Except StreamError Event)} (more : reader.next = some (item, rest))
      (others : Drains rest items) : Drains reader (item :: items)

/-- A reader gives what is yielded by the lines that are left, numbered on from those behind it. -/
theorem LineReader.drains (left : List (List UInt8)) (passed : Nat) :
    Drains ⟨left, passed⟩
      ((left.zipIdx (passed + 1)).filterMap fun entry => readLine entry.2 entry.1) := by
  induction left generalizing passed with
  | nil => exact .ended rfl
  | cons line rest ih =>
      rw [List.zipIdx_cons, List.filterMap_cons]
      cases yielded : readLine (passed + 1) line with
      | some item =>
          refine .item ?_ (ih (passed + 1))
          rw [next, pull, yielded]
      | none =>
          have skipped : next ⟨line :: rest, passed⟩ = next ⟨rest, passed + 1⟩ := by
            rw [next, pull, yielded]
            rfl
          generalize behind : (rest.zipIdx (passed + 1 + 1)).filterMap
            (fun entry => readLine entry.2 entry.1) = items
          have others := ih (passed + 1)
          rw [behind] at others
          cases others with
          | ended none => exact .ended (skipped.trans none)
          | item more others => exact .item (skipped.trans more) others

/-- Reading any bytes cuts them at the line feeds, without a carriage return before one and with a last
line that may lack its own. Each line yields one item if it is no text, or if it holds something that is
no comment, and nothing otherwise, and the items stand in the order of the lines. A reader that pulls them
one by one gets all of them and comes to an end. What a line yields is told by its own bytes and
its number, which counts all lines from one. -/
theorem read_exact (bytes : List UInt8) :
    (∃ fed last, bytes.splitOn lineFeed = fed ++ [last] ∧
      ∃ yielded, read bytes = yielded.reduceOption ∧
        List.Forall₂ (fun entry item => Yields entry.2 entry.1 item)
          ((fed.map dropReturn ++ if last = [] then [] else [last]).zipIdx 1) yielded) ∧
    (LineReader.start bytes).Drains (read bytes) ∧
    (∀ number line first second,
      Yields number line first → Yields number line second → first = second) ∧
    ∀ number, (StreamError.unreadable number).message = "Failed to read line " ++ toString number ∧
      (StreamError.invalid number).message = "Invalid event on line " ++ toString number := by
  refine ⟨?_, LineReader.drains (lines bytes) 0, ?_, fun number => ⟨rfl, rfl⟩⟩
  · obtain ⟨fed, last, pieces, cut⟩ := lines_eq bytes
    refine ⟨fed, last, pieces,
      ((lines bytes).zipIdx 1).map fun entry => readLine entry.2 entry.1, ?_, ?_⟩
    · rw [read, List.reduceOption, List.filterMap_map]
      rfl
    · rw [← cut, List.forall₂_map_right_iff, List.forall₂_same]
      exact fun entry _ => yields_readLine entry.2 entry.1
  · intro number line first second yields others
    rw [yields.eq_readLine, others.eq_readLine]

/-- A comment, an event behind a blank, a list that is too short for an event, a byte that begins no
character, a blank line, and an event whose line is not ended. -/
def mixedBytes : List UInt8 :=
  Text.toBytes "# load of é\r\n" ++
    Text.toBytes " \x7b\"ts\":3,\"path\":\"load\",\"op\":\"modify\",\"value\":\x7b\"int\":80\x7d\x7d\r\n" ++
    Text.toBytes "[5,\"load\"]\n" ++ [255, lineFeed] ++ Text.toBytes "  \n" ++
    Text.toBytes "[5,[\"load\"],\"update_ongoing\",\"null\"]"

def mixedItems : List (Except StreamError Event) :=
  [.ok ⟨3, .joined "load", .modify, .int 80⟩, .error (.invalid 3), .error (.unreadable 4),
    .ok ⟨5, .segments ["load"], .amend, .null⟩]

/-- The bad lines between the two events are told by their numbers and do not hide the second event. The
bytes of the third line yield nothing else under its number. -/
theorem read_exact_of_mixed :
    read mixedBytes = mixedItems ∧ (LineReader.start mixedBytes).Drains mixedItems ∧
      (∀ item, Yields 3 (Text.toBytes "[5,\"load\"]") item → item = some (.error (.invalid 3))) ∧
      (StreamError.invalid 3).message = "Invalid event on line 3" ∧
      (StreamError.unreadable 4).message = "Failed to read line 4" := by
  have decoded : read mixedBytes = mixedItems := by decide +kernel
  have refused : readLine 3 (Text.toBytes "[5,\"load\"]") = some (.error (.invalid 3)) := by
    decide +kernel
  obtain ⟨_, drains, single, messages⟩ := read_exact mixedBytes
  rw [decoded] at drains
  refine ⟨decoded, drains, ?_, (messages 3).2, (messages 4).1⟩
  intro item yields
  exact (single 3 _ _ _ yields (yields_readLine 3 _)).trans refused

end EventStream

end Chronicle
