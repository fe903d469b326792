import Chronicle.Json.Writer
import Chronicle.Json.Reader

/-!
Texts and integers are read back from their written form. Behind an integer there must be nothing
that goes on with it, as a digit, a point or an exponent would.
-/

namespace Chronicle.Json

theorem hexValue_hexDigit {digit : Nat} (small : digit < 16) :
    Text.hexValue (hexDigit digit) = some digit :=
  (by decide : ∀ digit < 16, Text.hexValue (hexDigit digit) = some digit) digit small

/-- A character is written by a short escape, by its code unit, or for itself. -/
theorem writeChar_cases (c : Char) :
    (∃ mark, writeChar c = ['\\', mark] ∧ mark ≠ 'u' ∧ ' ' ≤ mark ∧ shortEscape mark = some c) ∨
      (writeChar c = writeUnit c.toNat ∧ c < ' ') ∨
      (writeChar c = [c] ∧ c ≠ '"' ∧ c ≠ '\\' ∧ ' ' ≤ c) := by
  by_cases escaped : c ∈ ['"', '\\', '\x08', '\t', '\n', '\x0c', '\r']
  · simp only [List.mem_cons, List.not_mem_nil, or_false] at escaped
    rcases escaped with rfl | rfl | rfl | rfl | rfl | rfl | rfl <;>
      exact Or.inl ⟨_, rfl, by decide, by decide, rfl⟩
  · simp only [List.mem_cons, List.not_mem_nil, or_false, not_or] at escaped
    obtain ⟨quote, backslash, backspace, tab, feed, form, back⟩ := escaped
    rw [writeChar, if_neg quote, if_neg backslash, if_neg backspace, if_neg tab, if_neg feed,
      if_neg form, if_neg back]
    by_cases control : c < ' '
    · rw [if_pos control]
      exact Or.inr (Or.inl ⟨rfl, control⟩)
    · rw [if_neg control]
      exact Or.inr (Or.inr ⟨rfl, quote, backslash, Char.not_lt.mp control⟩)

theorem le_hexDigit (number : Nat) : ' ' ≤ hexDigit (number % 16) :=
  (by decide : ∀ digit < 16, ' ' ≤ hexDigit digit) _ (Nat.mod_lt _ (by decide))

/-- No control character is written. -/
theorem le_of_mem_writeChar {c written : Char} (member : written ∈ writeChar c) :
    ' ' ≤ written := by
  rcases writeChar_cases c with ⟨mark, escape, _, visible, _⟩ | ⟨escape, _⟩ | ⟨plain, _, _, visible⟩
  · rw [escape, List.mem_cons, List.mem_singleton] at member
    rcases member with rfl | rfl
    · decide
    · exact visible
  · rw [escape] at member
    simp only [writeUnit, List.mem_cons, List.not_mem_nil, or_false] at member
    rcases member with rfl | rfl | rfl | rfl | rfl | rfl
    · decide
    · decide
    all_goals exact le_hexDigit _
  · rw [plain, List.mem_singleton] at member
    rw [member]
    exact visible

theorem le_of_mem_writeText {content : String} {written : Char}
    (member : written ∈ writeText (letters content)) : ' ' ≤ written := by
  simp only [writeText, List.mem_cons, List.mem_append, List.mem_flatMap, letters, List.mem_map,
    List.not_mem_nil, or_false] at member
  rcases member with rfl | ⟨_, ⟨c, _, rfl⟩, inside⟩ | rfl
  · decide
  · exact le_of_mem_writeChar inside
  · decide

/-- An escape by code unit is read as that unit. -/
theorem readLetters_writeUnit {unit : Nat} (small : unit < 65536) (input : List Char) :
    readLetters .plain (writeUnit unit ++ input) =
      (readLetters .plain input).map fun read => (.half unit :: read.1, read.2) := by
  have digit (number : Nat) : Text.hexValue (hexDigit (number % 16)) = some (number % 16) :=
    hexValue_hexDigit (Nat.mod_lt _ (by decide))
  have value : ((unit / 4096 % 16 * 16 + unit / 256 % 16) * 16 + unit / 16 % 16) * 16 +
      unit % 16 = unit := by
    omega
  simp [writeUnit, readLetters, digit, value]

/-- The letter that a written character is read as before code units become characters. -/
def rawLetter (c : Char) : Letter :=
  if writeChar c = writeUnit c.toNat then .half c.toNat else .char c

theorem readLetters_writeChar (c : Char) (input : List Char) :
    readLetters .plain (writeChar c ++ input) =
      (readLetters .plain input).map fun read => (rawLetter c :: read.1, read.2) := by
  rw [rawLetter]
  rcases writeChar_cases c with ⟨mark, written, notUnit, _, meant⟩ | ⟨written, control⟩ |
    ⟨written, quote, backslash, visible⟩
  · rw [written, if_neg (by simp [writeUnit])]
    simp [readLetters, notUnit, meant]
  · have small : c.toNat < 32 := control
    rw [written, if_pos rfl, readLetters_writeUnit (by omega)]
  · rw [written, if_neg (by simp [writeUnit])]
    simp [readLetters, quote, backslash, Char.not_lt.mpr visible]

theorem readLetters_flatMap_writeChar (content rest : List Char) :
    readLetters .plain (content.flatMap writeChar ++ '"' :: rest) =
      some (content.map rawLetter, rest) := by
  induction content with
  | nil => simp [readLetters]
  | cons c content ih =>
      rw [List.flatMap_cons, List.append_assoc, readLetters_writeChar, ih]
      rfl

/-- A code unit below the surrogate halves becomes its character. -/
theorem pairUp_half {unit : Nat} (small : unit < 0xD800) (rest : List Letter) :
    pairUp (.half unit :: rest) = .char (Char.ofNat unit) :: pairUp rest := by
  have high : isHighHalf unit = false := by
    simp only [isHighHalf, Bool.and_eq_false_iff, decide_eq_false_iff_not]
    omega
  have low : isLowHalf unit = false := by
    simp only [isLowHalf, Bool.and_eq_false_iff, decide_eq_false_iff_not]
    omega
  rcases rest with _ | ⟨c | next, rest⟩ <;> simp [pairUp, high, low]

theorem pairUp_map_rawLetter (content : List Char) :
    pairUp (content.map rawLetter) = content.map Letter.char := by
  induction content with
  | nil => rfl
  | cons c content ih =>
      rw [List.map_cons, List.map_cons, rawLetter]
      split
      case isTrue escaped =>
        have control : c < ' ' := by
          rcases writeChar_cases c with ⟨_, written, _⟩ | ⟨_, control⟩ | ⟨written, _⟩
          · simp [written, writeUnit] at escaped
          · exact control
          · simp [written, writeUnit] at escaped
        have small : c.toNat < 32 := control
        rw [pairUp_half (by omega), Char.ofNat_toNat, ih]
      case isFalse => rw [pairUp, ih]

/-- A text is read up to its closing quote. -/
theorem readText_body (content : String) (rest : List Char) :
    readText ((letters content).flatMap writeLetter ++ '"' :: rest) =
      some (letters content, rest) := by
  rw [readText, letters, List.flatMap_map]
  simp only [writeLetter]
  rw [readLetters_flatMap_writeChar, Option.map_some, pairUp_map_rawLetter]

/-- What ends a number does not go on with it. -/
def Ends (rest : List Char) : Prop :=
  ∀ c ∈ rest.head?, c.isDigit = false ∧ c ≠ '.' ∧ c ≠ 'e' ∧ c ≠ 'E'

theorem ends_nil : Ends [] := by
  intro c member
  cases member

theorem toDigits_eq_cons (number : Nat) :
    ∃ c more, Nat.toDigits 10 number = c :: more ∧ c.isDigit = true := by
  cases written : Nat.toDigits 10 number with
  | nil => exact absurd written Nat.toDigits_ne_nil
  | cons c more =>
      exact ⟨c, more, rfl,
        Nat.isDigit_of_mem_toDigits (by decide) (by decide) (written ▸ List.mem_cons_self)⟩

/-- An integer starts with a digit or a sign. -/
theorem writeInteger_eq_cons (number : Int) :
    ∃ c more, writeInteger number = c :: more ∧ (c.isDigit = true ∨ c = '-') := by
  cases number with
  | ofNat number =>
      obtain ⟨c, more, written, digit⟩ := toDigits_eq_cons number
      exact ⟨c, more, written, Or.inl digit⟩
  | negSucc number => exact ⟨_, _, rfl, Or.inr rfl⟩

theorem le_of_mem_writeInteger {number : Int} {written : Char}
    (member : written ∈ writeInteger number) : ' ' ≤ written := by
  have digits {number : Nat} (inside : written ∈ Nat.toDigits 10 number) : ' ' ≤ written := by
    have digit := Char.isDigit_iff_toNat.mp
      (Nat.isDigit_of_mem_toDigits (by decide) (by decide) inside)
    exact Nat.le_trans (by decide : 32 ≤ 48) digit.1
  cases number with
  | ofNat number => exact digits member
  | negSucc number =>
      rcases List.mem_cons.mp member with rfl | inside
      · decide
      · exact digits inside

/-- Only zero starts with a zero. -/
theorem eq_zero_of_head?_toDigits {number : Nat}
    (zero : (Nat.toDigits 10 number).head? = some '0') : number = 0 := by
  induction number using Nat.strongRecOn with
  | ind number ih =>
      rw [Nat.toDigits_eq_if (by decide)] at zero
      split at zero
      case isTrue small =>
        have digits : ∀ number < 10, number.digitChar = '0' → number = 0 := by decide
        exact digits number small (Option.some.inj zero)
      case isFalse large =>
        rw [List.head?_append, List.head?_eq_some_head Nat.toDigits_ne_nil, Option.some_or,
          ← List.head?_eq_some_head] at zero
        have := ih (number / 10) (by omega) zero
        omega

theorem Ends.isDigit {rest : List Char} (ends : Ends rest) :
    rest.takeWhile Char.isDigit = [] ∧ rest.dropWhile Char.isDigit = rest := by
  cases rest with
  | nil => exact ⟨rfl, rfl⟩
  | cons c rest => simp [(ends c rfl).1]

theorem Ends.readFraction_eq {rest : List Char} (ends : Ends rest) :
    readFraction rest = some ([], rest) := by
  unfold readFraction
  split
  case h_1 => exact absurd rfl (ends '.' rfl).2.1
  case h_2 => rfl

theorem Ends.readExponent_eq {rest : List Char} (ends : Ends rest) :
    readExponent rest = some ([], rest) := by
  cases rest with
  | nil => rfl
  | cons c rest => simp [readExponent, (ends c rfl).2.2]

/-- The digits of a number are read up to the first character that is none. -/
theorem readWhole_toDigits (number : Nat) {rest : List Char} (ends : Ends rest) :
    readWhole (Nat.toDigits 10 number ++ rest) = some (Nat.toDigits 10 number, rest) := by
  have digits : ∀ c ∈ Nat.toDigits 10 number, c.isDigit = true := fun c member =>
    Nat.isDigit_of_mem_toDigits (by decide) (by decide) member
  rw [readWhole, List.takeWhile_append_of_pos digits, List.dropWhile_append_of_pos digits,
    ends.isDigit.1, ends.isDigit.2, List.append_nil]
  obtain ⟨c, more, written, _⟩ := toDigits_eq_cons number
  rw [written]
  by_cases zero : c = '0'
  · have none : number = 0 := eq_zero_of_head?_toDigits (by rw [written, zero]; rfl)
    rw [none] at written
    cases written
    rfl
  · simp [zero]

theorem readUnsigned_toDigits (negative : Bool) (number : Nat) {rest : List Char}
    (ends : Ends rest) :
    readUnsigned negative (Nat.toDigits 10 number ++ rest) =
      some (numberOf negative (Nat.toDigits 10 number) [] [], rest) := by
  rw [readUnsigned, readWhole_toDigits number ends]
  simp [ends.readFraction_eq, ends.readExponent_eq]

/-- An integer is read from its digits and its sign. -/
theorem readNumber_writeInteger (number : Int) {rest : List Char} (ends : Ends rest) :
    readNumber (writeInteger number ++ rest) = some (.integer number, rest) := by
  cases number with
  | ofNat number =>
      obtain ⟨c, more, written, digit⟩ := toDigits_eq_cons number
      have noSign : c ≠ '-' := by
        intro sign
        rw [sign] at digit
        cases digit
      rw [writeInteger, written, List.cons_append, readNumber, ← List.cons_append, ← written,
        readUnsigned_toDigits false number ends]
      · simp [numberOf, Nat.ofDigitChars_ten_toDigits]
      · intro rest same
        exact noSign (List.cons.inj same).1
  | negSucc number =>
      have nonzero : Nat.toDigits 10 (number + 1) ≠ ['0'] := by
        intro zero
        have none : number + 1 = 0 := eq_zero_of_head?_toDigits (by rw [zero]; rfl)
        omega
      rw [writeInteger, List.cons_append, readNumber, readUnsigned_toDigits true _ ends]
      simp [numberOf, nonzero, Nat.ofDigitChars_ten_toDigits, Int.negSucc_eq]

end Chronicle.Json
