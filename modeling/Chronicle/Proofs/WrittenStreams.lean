import Chronicle.Proofs.JsonForms
import Chronicle.Proofs.StreamLines

/-!
Streams that are written: one event on each line, with blank lines and comments anywhere between
them. Reading such a stream gives its events back, in their order and without an error.
-/

namespace Chronicle.EventStream

/-- A line ends with a line feed, which may stand behind a carriage return. -/
inductive LineEnd where
  | feed
  | returnFeed

/-- What stands between a line and its line feed. -/
def LineEnd.before : LineEnd → String
  | .feed => ""
  | .returnFeed => "\r"

/-- Blanks that stand within a line. -/
def InnerBlanks (blanks : String) : Prop :=
  ∀ c ∈ blanks.toList, Text.isBlank c = true ∧ c ≠ '\n'

instance (blanks : String) : Decidable (InnerBlanks blanks) :=
  List.decidableBAll (fun c => Text.isBlank c = true ∧ c ≠ '\n') blanks.toList

/-- A line that is written holds an event, nothing but blanks, or a comment behind some blanks. -/
inductive Line where
  | event (event : Event)
  | blank (blanks : String)
  | comment (blanks content : String)

namespace Line

def text : Line → String
  | .event entry => entry.toJson.compact
  | .blank blanks => blanks
  | .comment blanks content => blanks ++ ("#" ++ content)

def event? : Line → Option Event
  | .event entry => some entry
  | _ => none

/-- A line can be written if the time of its event fits a machine word and no line feed cuts it. -/
def Written : Line → Prop
  | .event entry => entry.time < wordBound
  | .blank blanks => InnerBlanks blanks
  | .comment blanks content => InnerBlanks blanks ∧ '\n' ∉ content.toList

instance (line : Line) : Decidable line.Written :=
  match line with
  | .event entry => inferInstanceAs (Decidable (entry.time < wordBound))
  | .blank blanks => inferInstanceAs (Decidable (InnerBlanks blanks))
  | .comment blanks content =>
      inferInstanceAs (Decidable (InnerBlanks blanks ∧ '\n' ∉ content.toList))

end Line

/-- The text of a stream: every line with its end. -/
def textOf : List (Line × LineEnd) → String
  | [] => ""
  | (line, ending) :: rest => line.text ++ ending.before ++ "\n" ++ textOf rest

/-- The form of an event fills its line from brace to brace. -/
theorem trim_event (event : Event) :
    Text.trim (event.toJson.write .compact 0) = event.toJson.write .compact 0 ∧
      (event.toJson.write .compact 0).head? = some '\x7b' := by
  obtain ⟨body, braces⟩ : ∃ body,
      event.toJson.write .compact 0 = [] ++ '\x7b' :: (body ++ ['\x7d']) :=
    ⟨_, by rw [Event.toJson, Json.object, List.map_cons, Json.write]; rfl⟩
  rw [braces, Text.trim_append_cons (by simp) (by decide), List.reverse_append]
  exact ⟨by simp [show Text.isBlank '\x7d' = false by decide], rfl⟩

theorem Line.Written.feed_not_mem {line : Line} (written : line.Written) :
    '\n' ∉ line.text.toList := by
  cases line with
  | event entry =>
      intro member
      rw [text, Json.compact, String.toList_ofList] at member
      exact absurd (entry.plain_toJson.le_of_mem_write 0 _ member) (by decide)
  | blank blanks =>
      intro member
      exact (written _ member).2 rfl
  | comment blanks content =>
      simp only [text, String.toList_append, List.mem_append, not_or]
      exact ⟨fun member => (written.1 _ member).2 rfl, by decide, written.2⟩

/-- A line yields its event, or nothing if it has none. -/
theorem Line.Written.readLine_eq {line : Line} (written : line.Written) (number : Nat) :
    readLine number (Text.toBytes line.text) = line.event?.map Except.ok := by
  rw [readLine, decodeLine, Text.ofBytes_toBytes]
  simp only [Option.map_some]
  cases line with
  | event entry =>
      obtain ⟨trimmed, opened⟩ := trim_event entry
      have decoded : (Json.readChars (entry.toJson.write .compact 0)).bind Event.ofJson =
          some entry := by
        rw [entry.plain_toJson.readChars_write Json.Layout.compact_blank, Option.bind_some,
          entry.ofJson_toJson written]
      have visible : ¬(entry.toJson.write .compact 0 = [] ∨
          (entry.toJson.write .compact 0).head? = some '#') := by
        intro skipped
        rcases skipped with none | comment
        · rw [none] at opened
          cases opened
        · rw [opened] at comment
          exact absurd comment (by decide)
      rw [text, Json.compact, String.toList_ofList, trimmed, if_neg visible, decoded]
      rfl
  | blank blanks =>
      rw [text, Text.trim_of_blank fun c member => (written c member).1]
      rfl
  | comment blanks content =>
      have trimmed := Text.trim_append_cons (fun c member => (written.1 c member).1)
        (show Text.isBlank '#' = false by decide) content.toList
      rw [text, String.toList_append, String.toList_append]
      rw [show "#".toList = ['#'] from rfl, List.singleton_append, trimmed]
      exact if_pos (Or.inr rfl)

/-- The first line of a stream is cut off, whatever its end. -/
theorem lines_textOf_cons {line : Line} (written : line.Written) (ending : LineEnd)
    (rest : List (Line × LineEnd)) :
    lines (Text.toBytes (textOf ((line, ending) :: rest))) =
      dropReturn (Text.toBytes (line.text ++ ending.before)) ::
        lines (Text.toBytes (textOf rest)) := by
  have whole : lineFeed ∉ Text.toBytes (line.text ++ ending.before) := by
    intro member
    have inside := Text.mem_of_mem_toBytes (by decide) member
    rw [String.toList_append, List.mem_append] at inside
    rcases inside with inner | after
    · exact written.feed_not_mem inner
    · cases ending <;> exact absurd after (by decide)
  rw [textOf, Text.toBytes_append, Text.toBytes_append, List.append_assoc]
  exact lines_append_feed whole _

/-- The end of a line does not change what it yields. -/
theorem readLine_before (number : Nat) (content : String) (ending : LineEnd) :
    readLine number (dropReturn (Text.toBytes (content ++ ending.before))) =
      readLine number (Text.toBytes content) := by
  rw [readLine_dropReturn]
  cases ending with
  | feed => rw [LineEnd.before, String.append_empty]
  | returnFeed =>
      apply readLine_toBytes_congr
      rw [LineEnd.before, String.toList_append]
      exact Text.trim_append_singleton (by decide) content.toList

/-- From any number on, the lines of a stream yield their events. -/
theorem filterMap_readLine_textOf (stream : List (Line × LineEnd))
    (written : ∀ entry ∈ stream, entry.1.Written) (number : Nat) :
    ((lines (Text.toBytes (textOf stream))).zipIdx number).filterMap
        (fun entry => readLine entry.2 entry.1) =
      (stream.filterMap fun entry => entry.1.event?).map Except.ok := by
  induction stream generalizing number with
  | nil => rfl
  | cons entry rest ih =>
      obtain ⟨line, ending⟩ := entry
      rw [List.forall_mem_cons] at written
      rw [lines_textOf_cons written.1, List.zipIdx_cons, List.filterMap_cons, List.filterMap_cons,
        readLine_before, written.1.readLine_eq, ih written.2]
      cases line.event? <;> rfl

/-- Reading a stream that was written gives the events of its lines in order and no error, whatever
blank lines and comments stand between them and however the lines end. -/
theorem read_textOf (stream : List (Line × LineEnd))
    (written : ∀ entry ∈ stream, entry.1.Written) :
    read (Text.toBytes (textOf stream)) =
      (stream.filterMap fun entry => entry.1.event?).map Except.ok :=
  filterMap_readLine_textOf stream written 1

/-- A stream with a comment, a blank line and two events: the first one has a text of two lines with
quotes, and a segment that is empty and one that would be split; the second one has the last time of
all, a joined path that looks like a comment, and the smallest wide integer. -/
def diskStream : List (Line × LineEnd) :=
  [(.comment " " "recorded", .feed),
    (.event ⟨5, .segments ["", "sda/1"], .modify, .text "\"busy\"\nagain"⟩, .returnFeed),
    (.blank "\t ", .returnFeed),
    (.event ⟨18446744073709551615, .joined "#sda\\", .amend, .long (-9223372036854775808)⟩, .feed)]

theorem read_textOf_of_disk :
    (∀ entry ∈ diskStream, entry.1.Written) ∧
      textOf diskStream = " #recorded\n\x7b\"timestamp\":5,\"path\":[\"\",\"sda/1\"]" ++
        ",\"op\":\"modify\",\"value\":\x7b\"string\":\"\\\"busy\\\"\\nagain\"\x7d\x7d\r\n\t \r\n" ++
        "\x7b\"timestamp\":18446744073709551615,\"path\":\"#sda\\\\\",\"op\":\"update_ongoing\"" ++
        ",\"value\":\x7b\"long\":-9223372036854775808\x7d\x7d\n" ∧
      read (Text.toBytes (textOf diskStream)) =
        [.ok ⟨5, .segments ["", "sda/1"], .modify, .text "\"busy\"\nagain"⟩,
          .ok ⟨18446744073709551615, .joined "#sda\\", .amend, .long (-9223372036854775808)⟩] := by
  have written : ∀ entry ∈ diskStream, entry.1.Written := by decide
  exact ⟨written, by decide +kernel, read_textOf diskStream written⟩

end Chronicle.EventStream
