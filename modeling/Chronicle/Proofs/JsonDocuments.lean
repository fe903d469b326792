import Chronicle.Proofs.JsonScalars

/-!
A document whose texts denote strings and whose numbers are integers is read back from its written
form, in every layout that adds nothing but blanks.
-/

namespace Chronicle.Json

variable {layout : Layout} {document : Json}

/-- A plain document has strings for its texts and names, and integers for its numbers. -/
inductive Plain : Json → Prop where
  | null : Plain .null
  | bool (flag : Bool) : Plain (.bool flag)
  | integer (number : Int) : Plain (.integer number)
  | string (content : String) : Plain (.string content)
  | list {items : List Json} (plain : ∀ item ∈ items, Plain item) : Plain (.list items)
  | record {fields : List (List Letter × Json)}
      (named : ∀ field ∈ fields, ∃ name, field.1 = letters name)
      (plain : ∀ field ∈ fields, Plain field.2) : Plain (.record fields)

theorem Plain.object {fields : List (String × Json)} (plain : ∀ field ∈ fields, Plain field.2) :
    Plain (.object fields) := by
  apply Plain.record
  · intro field member
    obtain ⟨named, _, rfl⟩ := List.mem_map.mp member
    exact ⟨named.1, rfl⟩
  · intro field member
    obtain ⟨named, inside, rfl⟩ := List.mem_map.mp member
    exact plain named inside

/-- Characters that are nothing but blanks. -/
def Blanks (content : List Char) : Prop := ∀ c ∈ content, isBlank c = true

theorem blanks_nil : Blanks [] := by
  intro c member
  cases member

/-- A layout that adds nothing but blanks. -/
structure Layout.Blank (layout : Layout) : Prop where
  line : ∀ depth, Blanks (layout.line depth)
  gap : Blanks layout.gap

theorem Layout.compact_blank : Layout.compact.Blank := ⟨fun _ => blanks_nil, blanks_nil⟩

theorem skipBlanks_cons {c : Char} (visible : isBlank c = false) (rest : List Char) :
    skipBlanks (c :: rest) = c :: rest :=
  List.dropWhile_cons_of_neg (by simp [visible])

theorem Blanks.skipBlanks_append {blanks : List Char} (blank : Blanks blanks) {c : Char}
    (visible : isBlank c = false) (rest : List Char) :
    skipBlanks (blanks ++ c :: rest) = c :: rest := by
  rw [skipBlanks, List.dropWhile_append_of_pos blank]
  exact skipBlanks_cons visible rest

theorem ends_of_isBlank {c : Char} (blank : isBlank c = true) :
    c.isDigit = false ∧ c ≠ '.' ∧ c ≠ 'e' ∧ c ≠ 'E' := by
  simp only [isBlank, Bool.or_eq_true, decide_eq_true_eq] at blank
  rcases blank with ((rfl | rfl) | rfl) | rfl <;> decide

theorem ends_cons {c : Char} (closes : c ∈ [',', ']', '\x7d']) (rest : List Char) :
    Ends (c :: rest) := by
  intro first member
  obtain rfl := Option.some.inj member
  simp only [List.mem_cons, List.not_mem_nil, or_false] at closes
  rcases closes with rfl | rfl | rfl <;> decide

/-- Blanks, commas and closing brackets end a number. -/
theorem Blanks.ends_append {blanks : List Char} (blank : Blanks blanks) {c : Char}
    (closes : c ∈ [',', ']', '\x7d']) (rest : List Char) : Ends (blanks ++ c :: rest) := by
  cases blanks with
  | nil => exact ends_cons closes rest
  | cons other blanks =>
      intro first member
      obtain rfl := Option.some.inj member
      exact ends_of_isBlank (blank other List.mem_cons_self)

/-- A plain document starts with no blank and no bracket that closes a list. -/
theorem Plain.write_eq_cons (plain : Plain document) (layout : Layout) (depth : Nat) :
    ∃ c more, document.write layout depth = c :: more ∧ isBlank c = false ∧ c ≠ ']' := by
  cases plain with
  | null => exact ⟨_, _, rfl, by decide, by decide⟩
  | bool flag => cases flag <;> exact ⟨_, _, rfl, by decide, by decide⟩
  | integer number =>
      obtain ⟨c, more, written, starts⟩ := writeInteger_eq_cons number
      refine ⟨c, more, written, ?_, ?_⟩
      · rcases starts with digit | rfl
        · apply Bool.eq_false_iff.mpr
          intro blank
          rw [(ends_of_isBlank blank).1] at digit
          cases digit
        · decide
      · intro bracket
        rw [bracket] at starts
        revert starts
        decide
  | string content => exact ⟨_, _, rfl, by decide, by decide⟩
  | @list items _ => cases items <;> exact ⟨_, _, rfl, by decide, by decide⟩
  | @record fields _ _ => cases fields <;> exact ⟨_, _, rfl, by decide, by decide⟩

/-- A document is read from its written form with two steps for each character, whatever blanks
stand before it and whatever ends it. -/
def Reads (layout : Layout) (document : Json) : Prop :=
  ∀ (fuel depth : Nat) (blanks rest : List Char), Blanks blanks → Ends rest →
    2 * (document.write layout depth).length ≤ fuel →
      readDocument fuel (blanks ++ (document.write layout depth ++ rest)) = some (document, rest)

/-- Blanks before a plain document are passed over, and it has a character for the first step. -/
theorem Plain.reads_of (plain : Plain document)
    (read : ∀ (fuel depth : Nat) (rest : List Char), Ends rest →
      2 * (document.write layout depth).length ≤ fuel + 1 →
        readDocument (fuel + 1) (document.write layout depth ++ rest) = some (document, rest)) :
    Reads layout document := by
  intro fuel depth blanks rest blank ends enough
  obtain ⟨c, more, written, visible, _⟩ := plain.write_eq_cons layout depth
  obtain ⟨fuel, rfl⟩ : ∃ less, fuel = less + 1 :=
    ⟨fuel - 1, by rw [written, List.length_cons] at enough; omega⟩
  rw [← read fuel depth rest ends enough, written, List.cons_append, readDocument, readDocument,
    blank.skipBlanks_append visible, skipBlanks_cons visible]

theorem reads_integer (layout : Layout) (number : Int) : Reads layout (.integer number) := by
  have plain := Plain.integer number
  apply plain.reads_of
  intro fuel depth rest ends _
  obtain ⟨c, more, written, starts⟩ := writeInteger_eq_cons number
  obtain ⟨_, _, same, visible, _⟩ := plain.write_eq_cons layout depth
  rw [write] at same ⊢
  rw [written] at same
  obtain rfl := (List.cons.inj same).1
  have other (mark : Char) (different : ¬(mark.isDigit = true ∨ mark = '-')) : c ≠ mark := by
    intro same
    rw [same] at starts
    exact different starts
  rw [written, List.cons_append, readDocument, skipBlanks_cons visible]
  simp only
  rw [if_neg (other '"' (by decide)), if_neg (other '[' (by decide)),
    if_neg (other '\x7b' (by decide)), if_neg (other 'n' (by decide)),
    if_neg (other 't' (by decide)), if_neg (other 'f' (by decide)), ← List.cons_append, ← written,
    readNumber_writeInteger number ends]

theorem reads_string (layout : Layout) (content : String) : Reads layout (.string content) := by
  apply (Plain.string content).reads_of
  intro fuel depth rest _ _
  rw [string, write, writeText, List.cons_append, List.append_assoc, readDocument,
    skipBlanks_cons (by decide)]
  simp [readText_body]

/-- One item is read, and a comma behind it tells whether another one follows. -/
theorem Reads.readItems_eq {item : Json} (reads : Reads layout item) {fuel depth : Nat}
    {blanks rest : List Char} (before : Blanks blanks) (ends : Ends rest)
    (enough : 2 * (item.write layout depth).length ≤ fuel) :
    readItems (fuel + 1) (blanks ++ (item.write layout depth ++ rest)) =
      match Text.expect [','] (skipBlanks rest) with
      | some more => (readItems fuel more).map fun read => (item :: read.1, read.2)
      | none => (Text.expect [']'] (skipBlanks rest)).map fun left => ([item], left) := by
  have read := reads fuel depth blanks rest before ends enough
  cases comma : Text.expect [','] (skipBlanks rest) <;> simp only [readItems, read, comma]

/-- The items of a list are read up to its closing bracket. -/
theorem readItems_writeItems (blank : layout.Blank) (depth : Nat) {closing : List Char}
    (closed : Blanks closing) (after : List Char) {item : Json} {items : List Json}
    (reads : ∀ other ∈ item :: items, Reads layout other) {fuel : Nat} {blanks : List Char}
    (before : Blanks blanks)
    (enough : 2 * ((item.write layout depth).length + (writeItems layout depth items).length) ≤
      fuel) :
    readItems (fuel + 1) (blanks ++ (item.write layout depth ++
      (writeItems layout depth items ++ (closing ++ ']' :: after)))) =
        some (item :: items, after) := by
  induction items generalizing item fuel blanks with
  | nil =>
      rw [writeItems, List.nil_append, (reads item List.mem_cons_self).readItems_eq before
        (closed.ends_append (by decide) after) (by omega), closed.skipBlanks_append (by decide)]
      rfl
  | cons next items ih =>
      simp only [writeItems, List.length_cons, List.length_append] at enough
      -- The comma pays for the step that every further item takes.
      obtain ⟨fuel, rfl⟩ : ∃ less, fuel = less + 1 := ⟨fuel - 1, by omega⟩
      simp only [writeItems, List.cons_append, List.append_assoc]
      rw [(reads item List.mem_cons_self).readItems_eq before
        (ends_cons (by decide) _) (by omega), skipBlanks_cons (by decide)]
      simp only [Text.expect, if_true]
      rw [ih (fun other member => reads other (List.mem_cons_of_mem _ member)) (blank.line depth)
        (by omega)]
      rfl

/-- A name is read up to the colon behind it. -/
theorem readName_writeText {blanks : List Char} (blank : Blanks blanks) (name : String)
    (rest : List Char) :
    readName (blanks ++ (writeText (letters name) ++ ':' :: rest)) = some (letters name, rest) := by
  rw [readName, writeText, List.cons_append, blank.skipBlanks_append (by decide)]
  simp only [Text.expect, if_true, Option.bind_some, List.append_assoc, List.cons_append,
    List.nil_append, readText_body]
  rw [skipBlanks_cons (by decide)]
  rfl

/-- One field is read, and a comma behind it tells whether another one follows. -/
theorem Reads.readFields_eq (blank : layout.Blank) (name : String) {content : Json}
    (reads : Reads layout content) {fuel depth : Nat} {blanks rest : List Char}
    (before : Blanks blanks) (ends : Ends rest)
    (enough : 2 * (content.write layout depth).length ≤ fuel) :
    readFields (fuel + 1) (blanks ++ (writeText (letters name) ++
      ':' :: (layout.gap ++ (content.write layout depth ++ rest)))) =
      match Text.expect [','] (skipBlanks rest) with
      | some more => (readFields fuel more).map fun read =>
          ((letters name, content) :: read.1, read.2)
      | none => (Text.expect ['\x7d'] (skipBlanks rest)).map fun left =>
          ([(letters name, content)], left) := by
  have read := reads fuel depth layout.gap rest blank.gap ends enough
  cases comma : Text.expect [','] (skipBlanks rest) <;>
    simp only [readFields, readName_writeText before, read, comma]

/-- The fields of a record are read up to its closing brace. -/
theorem readFields_writeFields (blank : layout.Blank) (depth : Nat) {closing : List Char}
    (closed : Blanks closing) (after : List Char) {name : List Letter} {content : Json}
    {fields : List (List Letter × Json)}
    (named : ∀ field ∈ (name, content) :: fields, ∃ name, field.1 = letters name)
    (reads : ∀ field ∈ (name, content) :: fields, Reads layout field.2) {fuel : Nat}
    {blanks : List Char} (before : Blanks blanks)
    (enough : 2 * ((content.write layout depth).length +
      (writeFields layout depth fields).length) ≤ fuel) :
    readFields (fuel + 1) (blanks ++ (writeText name ++ ':' :: (layout.gap ++
      (content.write layout depth ++ (writeFields layout depth fields ++
        (closing ++ '\x7d' :: after)))))) = some ((name, content) :: fields, after) := by
  induction fields generalizing name content fuel blanks with
  | nil =>
      obtain ⟨given, rfl⟩ := named _ List.mem_cons_self
      have first : Reads layout content := reads _ List.mem_cons_self
      rw [writeFields, List.nil_append, first.readFields_eq blank given before
        (closed.ends_append (by decide) after) (by omega), closed.skipBlanks_append (by decide)]
      rfl
  | cons next fields ih =>
      obtain ⟨given, rfl⟩ := named _ List.mem_cons_self
      have first : Reads layout content := reads _ List.mem_cons_self
      obtain ⟨otherName, otherContent⟩ := next
      simp only [writeFields, List.length_cons, List.length_append] at enough
      obtain ⟨fuel, rfl⟩ : ∃ less, fuel = less + 1 := ⟨fuel - 1, by omega⟩
      simp only [writeFields, List.cons_append, List.append_assoc]
      rw [first.readFields_eq blank given before
        (ends_cons (by decide) _) (by omega), skipBlanks_cons (by decide)]
      simp only [Text.expect, if_true]
      rw [ih (fun field member => named field (List.mem_cons_of_mem _ member))
        (fun field member => reads field (List.mem_cons_of_mem _ member)) (blank.line depth)
        (by omega)]
      rfl

/-- A list is read if its items are. -/
theorem reads_list (blank : layout.Blank) {items : List Json} (plain : ∀ item ∈ items, Plain item)
    (reads : ∀ item ∈ items, Reads layout item) : Reads layout (.list items) := by
  apply (Plain.list plain).reads_of
  intro fuel depth rest _ enough
  cases items with
  | nil =>
      obtain ⟨fuel, rfl⟩ : ∃ less, fuel = less + 1 := ⟨fuel - 1, by simp [write] at enough; omega⟩
      rfl
  | cons item items =>
      simp only [write, List.length_cons, List.length_append] at enough
      obtain ⟨fuel, rfl⟩ : ∃ less, fuel = less + 2 := ⟨fuel - 2, by omega⟩
      obtain ⟨c, more, written, visible, bracket⟩ :=
        (plain item List.mem_cons_self).write_eq_cons layout (depth + 1)
      have inner := readItems_writeItems blank (depth + 1) (blank.line depth) rest reads
        (blank.line (depth + 1)) (show _ ≤ fuel by omega)
      simp only [write, List.cons_append, List.append_assoc, List.nil_append]
      rw [readDocument, skipBlanks_cons (by decide)]
      simp only [Char.reduceEq, if_false, if_true]
      rw [readList, inner]
      rw [written, List.cons_append, (blank.line (depth + 1)).skipBlanks_append visible]
      simp [Text.expect, bracket]

/-- A record is read if its names are strings and its contents are read. -/
theorem reads_record (blank : layout.Blank) {fields : List (List Letter × Json)}
    (named : ∀ field ∈ fields, ∃ name, field.1 = letters name)
    (plain : ∀ field ∈ fields, Plain field.2)
    (reads : ∀ field ∈ fields, Reads layout field.2) : Reads layout (.record fields) := by
  apply (Plain.record named plain).reads_of
  intro fuel depth rest _ enough
  cases fields with
  | nil =>
      obtain ⟨fuel, rfl⟩ : ∃ less, fuel = less + 1 := ⟨fuel - 1, by simp [write] at enough; omega⟩
      rfl
  | cons field fields =>
      obtain ⟨name, content⟩ := field
      simp only [write, List.length_cons, List.length_append] at enough
      obtain ⟨fuel, rfl⟩ : ∃ less, fuel = less + 2 := ⟨fuel - 2, by omega⟩
      have inner := readFields_writeFields blank (depth + 1) (blank.line depth) rest named reads
        (blank.line (depth + 1)) (show _ ≤ fuel by omega)
      simp only [write, List.cons_append, List.append_assoc, List.nil_append]
      rw [readDocument, skipBlanks_cons (by decide)]
      simp only [Char.reduceEq, if_false, if_true]
      rw [readRecord, inner, writeText, List.cons_append,
        (blank.line (depth + 1)).skipBlanks_append (by decide)]
      rfl

/-- Every plain document is read from its written form. -/
theorem Plain.reads (plain : Plain document) (blank : layout.Blank) : Reads layout document := by
  induction plain with
  | null =>
      apply Plain.null.reads_of
      intro fuel depth rest _ _
      rfl
  | bool flag =>
      apply (Plain.bool flag).reads_of
      intro fuel depth rest _ _
      cases flag <;> rfl
  | integer number => exact reads_integer layout number
  | string content => exact reads_string layout content
  | list plain reads => exact reads_list blank plain reads
  | record named plain reads => exact reads_record blank named plain reads

theorem Plain.readChars_write (plain : Plain document) (blank : layout.Blank) :
    readChars (document.write layout 0) = some document := by
  have read := plain.reads blank (2 * (document.write layout 0).length + 2) 0 [] [] blanks_nil
    ends_nil (by omega)
  rw [List.nil_append, List.append_nil] at read
  rw [readChars, read]
  rfl

theorem le_of_all {content : List Char} (all : content.all (fun c => ' ' ≤ c) = true) :
    ∀ c ∈ content, ' ' ≤ c := by
  intro c member
  exact of_decide_eq_true (List.all_eq_true.mp all c member)

theorem le_of_mem_writeItems {depth : Nat} {items : List Json}
    (visible : ∀ item ∈ items, ∀ c ∈ item.write .compact depth, ' ' ≤ c) :
    ∀ c ∈ writeItems .compact depth items, ' ' ≤ c := by
  induction items with
  | nil => simp [writeItems]
  | cons item items ih =>
      rw [List.forall_mem_cons] at visible
      simp only [writeItems, Layout.compact_line, List.nil_append, List.forall_mem_cons,
        List.forall_mem_append]
      exact ⟨by decide, visible.1, ih visible.2⟩

theorem le_of_mem_writeFields {depth : Nat} {fields : List (List Letter × Json)}
    (named : ∀ field ∈ fields, ∃ name, field.1 = letters name)
    (visible : ∀ field ∈ fields, ∀ c ∈ field.2.write .compact depth, ' ' ≤ c) :
    ∀ c ∈ writeFields .compact depth fields, ' ' ≤ c := by
  induction fields with
  | nil => simp [writeFields]
  | cons field fields ih =>
      obtain ⟨name, content⟩ := field
      rw [List.forall_mem_cons] at named visible
      obtain ⟨⟨given, rfl⟩, others⟩ := named
      simp only [writeFields, Layout.compact_line, Layout.compact_gap, List.append_assoc,
        List.nil_append, List.cons_append, List.forall_mem_cons, List.forall_mem_append]
      exact ⟨by decide, fun c member => le_of_mem_writeText member, by decide, visible.1,
        ih others visible.2⟩

/-- Without blanks a plain document has no control character in its written form. -/
theorem Plain.le_of_mem_write (plain : Plain document) (depth : Nat) :
    ∀ c ∈ document.write .compact depth, ' ' ≤ c := by
  induction plain generalizing depth with
  | null => exact le_of_all rfl
  | bool flag => cases flag <;> exact le_of_all rfl
  | integer number =>
      intro c member
      exact le_of_mem_writeInteger member
  | string content =>
      intro c member
      exact le_of_mem_writeText member
  | @list items plain visible =>
      cases items with
      | nil => exact le_of_all rfl
      | cons item items =>
          rw [List.forall_mem_cons] at visible
          have others := le_of_mem_writeItems fun other member => visible.2 other member (depth + 1)
          simp only [write, Layout.compact_line, List.append_nil, List.nil_append]
          rw [List.forall_mem_cons, List.forall_mem_append, List.forall_mem_append]
          exact ⟨by decide, ⟨visible.1 _, others⟩, le_of_all rfl⟩
  | @record fields named plain visible =>
      cases fields with
      | nil => exact le_of_all rfl
      | cons field fields =>
          obtain ⟨name, content⟩ := field
          rw [List.forall_mem_cons] at named visible
          obtain ⟨⟨given, rfl⟩, others⟩ := named
          have contents := le_of_mem_writeFields others fun other member =>
            visible.2 other member (depth + 1)
          simp only [write, Layout.compact_line, Layout.compact_gap, List.append_nil,
            List.nil_append, List.append_assoc, List.cons_append]
          rw [List.forall_mem_cons, List.forall_mem_append, List.forall_mem_cons,
            List.forall_mem_append, List.forall_mem_append]
          exact ⟨by decide, fun c member => le_of_mem_writeText member, by decide, visible.1 _,
            contents, le_of_all rfl⟩

end Chronicle.Json
