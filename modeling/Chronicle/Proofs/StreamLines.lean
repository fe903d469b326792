import Chronicle.EventStream
import Mathlib.Tactic.SplitIfs

/-!
The lines of a stream, as bytes and as texts. A line is cut at its line feed, and whether it also
had a carriage return makes no difference once it is trimmed.
-/

namespace Chronicle

namespace Text

theorem toBytes_eq_flatMap (content : String) :
    toBytes content = content.toList.flatMap String.utf8EncodeChar := by
  have encoded : content.toByteArray = content.toList.utf8Encode := by
    rw [← String.toByteArray_ofList, String.ofList_toList]
  rw [toBytes, String.toUTF8_eq_toByteArray, encoded, List.utf8Encode]
  simp

@[simp] theorem toBytes_append (first second : String) :
    toBytes (first ++ second) = toBytes first ++ toBytes second := by
  simp only [toBytes_eq_flatMap, String.toList_append, List.flatMap_append]

/-- A byte below 128 stands for itself. -/
theorem toNat_of_mem_utf8EncodeChar {byte : UInt8} {c : Char} (small : byte.toNat < 128)
    (member : byte ∈ String.utf8EncodeChar c) : c.toNat = byte.toNat := by
  show c.val.toNat = byte.toNat
  simp only [String.utf8EncodeChar] at member
  split_ifs at member with one two three
  all_goals
    simp only [List.mem_cons, List.not_mem_nil, or_false] at member
  · rw [member, UInt8.toNat_ofNat']
    omega
  · rcases member with rfl | rfl <;> simp only [UInt8.toNat_ofNat'] at small <;> omega
  · rcases member with rfl | rfl | rfl <;> simp only [UInt8.toNat_ofNat'] at small <;> omega
  · rcases member with rfl | rfl | rfl | rfl <;> simp only [UInt8.toNat_ofNat'] at small <;> omega

/-- The character of a byte below 128 is in a text that has the byte. -/
theorem mem_of_mem_toBytes {byte : UInt8} {content : String} (small : byte.toNat < 128)
    (member : byte ∈ toBytes content) : Char.ofNat byte.toNat ∈ content.toList := by
  rw [toBytes_eq_flatMap] at member
  obtain ⟨c, inside, encoded⟩ := List.mem_flatMap.mp member
  rw [← toNat_of_mem_utf8EncodeChar small encoded, Char.ofNat_toNat]
  exact inside

/-- A text that starts with a visible character is trimmed at its end only. -/
theorem trim_append_cons {blanks : List Char} (blank : ∀ c ∈ blanks, isBlank c = true) {c : Char}
    (visible : isBlank c = false) (rest : List Char) :
    trim (blanks ++ c :: rest) = c :: (rest.reverse.dropWhile isBlank).reverse := by
  have kept : [c].dropWhile isBlank = [c] := List.dropWhile_cons_of_neg (by simp [visible])
  rw [trim, List.dropWhile_append_of_pos blank, List.dropWhile_cons_of_neg (by simp [visible]),
    List.reverse_cons, List.dropWhile_append, kept]
  split
  case isTrue none => simp [List.isEmpty_iff.mp none]
  case isFalse => rw [List.reverse_append, List.reverse_singleton, List.singleton_append]

theorem trim_of_blank {blanks : List Char} (blank : ∀ c ∈ blanks, isBlank c = true) :
    trim blanks = [] := by
  rw [trim, ← List.append_nil blanks, List.dropWhile_append_of_pos blank]
  rfl

theorem trim_append_singleton {c : Char} (blank : isBlank c = true) (content : List Char) :
    trim (content ++ [c]) = trim content := by
  rw [trim, trim, List.dropWhile_append]
  split
  case isTrue none => simp [List.isEmpty_iff.mp none, blank]
  case isFalse =>
    rw [List.reverse_append, List.reverse_singleton, List.singleton_append,
      List.dropWhile_cons_of_pos blank]

end Text

namespace EventStream

theorem linesFrom_append_feed {line : List UInt8} (whole : lineFeed ∉ line)
    (current rest : List UInt8) :
    linesFrom current (line ++ lineFeed :: rest) =
      dropReturn (current.reverse ++ line) :: lines rest := by
  induction line generalizing current with
  | nil => simp [linesFrom, lines]
  | cons byte line ih =>
      obtain ⟨other, inner⟩ := List.ne_and_not_mem_of_not_mem_cons whole
      rw [List.cons_append, linesFrom, if_neg other.symm, ih inner, List.reverse_cons,
        List.append_assoc, List.singleton_append]

/-- Bytes without a line feed are a line when one stands behind them. -/
theorem lines_append_feed {line : List UInt8} (whole : lineFeed ∉ line) (rest : List UInt8) :
    lines (line ++ lineFeed :: rest) = dropReturn line :: lines rest :=
  linesFrom_append_feed whole [] rest

/-- Only the last character of a text can be a carriage return at its end. -/
theorem dropReturn_append (content : String) (c : Char) :
    dropReturn (Text.toBytes (content ++ String.ofList [c])) =
      if c = '\r' then Text.toBytes content
      else Text.toBytes (content ++ String.ofList [c]) := by
  have encoded : Text.toBytes (String.ofList [c]) = String.utf8EncodeChar c := by
    simp [Text.toBytes_eq_flatMap]
  rw [Text.toBytes_append, encoded]
  split
  case isTrue same =>
    have returned : String.utf8EncodeChar '\r' = [carriageReturn] := rfl
    rw [same, returned, dropReturn, if_pos List.getLast?_concat, List.dropLast_concat]
  case isFalse other =>
    apply if_neg
    intro ends
    rw [List.getLast?_append, List.getLast?_eq_some_getLast String.utf8EncodeChar_ne_nil,
      Option.some_or] at ends
    have inside : carriageReturn ∈ String.utf8EncodeChar c :=
      Option.some.inj ends ▸ List.getLast_mem _
    apply other
    rw [← Char.ofNat_toNat c, Text.toNat_of_mem_utf8EncodeChar (by decide) inside]
    rfl

/-- What is kept of a line is a text again, with the same content once it is trimmed. -/
theorem dropReturn_toBytes (content : String) :
    ∃ kept, dropReturn (Text.toBytes content) = Text.toBytes kept ∧
      Text.trim kept.toList = Text.trim content.toList := by
  rcases List.eq_nil_or_concat content.toList with none | ⟨front, c, split⟩
  · refine ⟨content, ?_, rfl⟩
    rw [Text.toBytes_eq_flatMap, none]
    rfl
  · have whole : content = String.ofList front ++ String.ofList [c] := by
      rw [← String.ofList_append, ← List.concat_eq_append, ← split, String.ofList_toList]
    rw [whole, dropReturn_append]
    split_ifs with same
    · refine ⟨String.ofList front, rfl, ?_⟩
      rw [String.toList_append, String.toList_ofList, String.toList_ofList, same,
        Text.trim_append_singleton (by decide)]
    · exact ⟨_, rfl, rfl⟩

/-- What a text yields depends on its content after trimming only. -/
theorem readLine_toBytes_congr {first second : String}
    (same : Text.trim first.toList = Text.trim second.toList) (number : Nat) :
    readLine number (Text.toBytes first) = readLine number (Text.toBytes second) := by
  rw [readLine, readLine, decodeLine, decodeLine, Text.ofBytes_toBytes, Text.ofBytes_toBytes]
  simp only [Option.map_some, same]

theorem readLine_dropReturn (number : Nat) (content : String) :
    readLine number (dropReturn (Text.toBytes content)) =
      readLine number (Text.toBytes content) := by
  obtain ⟨kept, dropped, same⟩ := dropReturn_toBytes content
  rw [dropped]
  exact readLine_toBytes_congr same number

end EventStream

end Chronicle
