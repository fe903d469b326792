import Chronicle.Lanes
import Chronicle.Proofs.AscendingLists
import Chronicle.Proofs.TreeLinks
import Mathlib.Data.List.Nodup
import Mathlib.Data.List.Perm.Basic
import Mathlib.Data.List.Range

/-!
The slots of lanes: every issued slot is free or held by exactly one live key, and different slots
have different names.
-/

namespace Chronicle

variable {Key : Type} {lanes : Lanes Key} {lane : Lane}

/-- A noted lane has what it had and what is noted. -/
theorem Lane.mem_note (lane : Lane) (quarks : List Quark) (quark : Quark) :
    quark ∈ (lane.note quarks).written ↔ quark ∈ lane.written ∨ quark ∈ quarks := by
  rw [Lane.note]
  simp only
  generalize lane.written = noted
  induction quarks generalizing noted with
  | nil => simp
  | cons first rest ih =>
      rw [List.foldl_cons, ih, List.mem_cons]
      split_ifs with present
      · constructor
        · exact Or.imp_right Or.inr
        · rintro (before | rfl | later)
          · exact Or.inl before
          · exact Or.inl present
          · exact Or.inr later
      · rw [List.mem_append, List.mem_singleton, or_assoc]

/-- A slot can be read off its name, since leading zeros count for nothing. -/
theorem Lanes.slotName_injective (lanes : Lanes Key) : Function.Injective lanes.slotName := by
  have read (slot : Nat) : Nat.ofDigitChars 10 (lanes.slotName slot).toList 0 = slot := by
    rw [Lanes.slotName, String.toList_ofList, Nat.ofDigitChars_append,
      Nat.ofDigitChars_replicate_zero, Nat.mul_zero, Nat.ofDigitChars_ten_toDigits]
  intro first second same
  rw [← read first, same, read second]

/-- The slots of the live keys. -/
def Lanes.slots (lanes : Lanes Key) : List Nat := lanes.live.map fun entry => entry.2.slot

def Lanes.keys (lanes : Lanes Key) : List Key := lanes.live.map Prod.fst

/-- The slots that were issued are those that are granted to nobody yet, free, or held by a live
key, each of them once. -/
structure Lanes.Allotted (lanes : Lanes Key) (granted : List Nat) : Prop where
  slots : (granted ++ (lanes.free ++ lanes.slots)).Perm (List.range lanes.issued)
  ascends : lanes.free.Pairwise (· ≤ ·)
  keys : lanes.keys.Nodup

/-- The slots that are free or held occur once. -/
theorem Lanes.Allotted.nodup {granted : List Nat} (allotted : lanes.Allotted granted) :
    (lanes.free ++ lanes.slots).Nodup :=
  (List.nodup_append.mp (allotted.slots.nodup_iff.mpr List.nodup_range)).2.1

theorem Lanes.allotted_empty (parent : Quark) (width : Nat) :
    (Lanes.empty parent width : Lanes Key).Allotted [] where
  slots := List.Perm.refl []
  ascends := List.Pairwise.nil
  keys := List.nodup_nil

/-- An allocated slot is granted. -/
theorem Lanes.Allotted.allocate (allotted : lanes.Allotted []) :
    lanes.allocate.2.Allotted [lanes.allocate.1] := by
  have slots := allotted.slots
  have ascends := allotted.ascends
  unfold Lanes.allocate
  cases free : lanes.free with
  | cons slot rest =>
      rw [free] at slots ascends
      exact ⟨slots, (List.pairwise_cons.mp ascends).2, allotted.keys⟩
  | nil =>
      rw [free] at slots
      refine ⟨?_, List.Pairwise.nil, allotted.keys⟩
      simp only [List.range_succ]
      exact (slots.cons lanes.issued).trans (List.perm_append_singleton _ _).symm

/-- A granted slot that is released is free. -/
theorem Lanes.Allotted.release {slot : Nat} (allotted : lanes.Allotted [slot]) :
    (lanes.release slot).Allotted [] where
  slots := ((Ascending.perm_insert slot lanes.free).append_right lanes.slots).trans allotted.slots
  ascends := Ascending.pairwise_insert allotted.ascends
  keys := allotted.keys

/-- Allocating changes neither the parent nor the names of slots. -/
theorem Lanes.place_allocate (lanes : Lanes Key) :
    lanes.allocate.2.parent = lanes.parent ∧ lanes.allocate.2.slotName = lanes.slotName := by
  unfold Lanes.allocate
  split <;> exact ⟨rfl, rfl⟩

section Live

variable [DecidableEq Key] {key : Key}

@[simp] theorem Lanes.laneOf_release (slot : Nat) (key : Key) :
    (lanes.release slot).laneOf key = lanes.laneOf key := rfl

@[simp] theorem Lanes.laneOf_allocate (key : Key) :
    lanes.allocate.2.laneOf key = lanes.laneOf key := by
  unfold Lanes.allocate
  split <;> rfl

/-- Only the key that a lane is put for gets it. -/
theorem Lanes.laneOf_put (lanes : Lanes Key) (key : Key) (lane : Lane) (other : Key) :
    (lanes.put key lane).laneOf other = if other = key then some lane else lanes.laneOf other := by
  rw [Lanes.laneOf, Lanes.put]
  rcases Option.eq_none_or_eq_some (lanes.laneOf key) with fresh | ⟨former, held⟩
  · rw [if_neg (by simp [fresh]), List.lookup_append, lookup_cons_eq_if, List.lookup_nil]
    by_cases same : other = key
    · rw [if_pos same, if_pos same, same, ← Lanes.laneOf, fresh, Option.none_or]
    · rw [if_neg same, if_neg same, Option.or_none, Lanes.laneOf]
  · rw [if_pos (by simp [held]), lookup_replace, ← Lanes.laneOf, held, ← Lanes.laneOf]
    rfl

/-- Only the key that is dropped loses its lane. -/
theorem Lanes.laneOf_drop (lanes : Lanes Key) (key other : Key) :
    (lanes.drop key).laneOf other = if other = key then none else lanes.laneOf other := by
  simp only [Lanes.drop, Lanes.laneOf]
  induction lanes.live with
  | nil => simp
  | cons entry rest ih =>
      obtain ⟨first, held⟩ := entry
      rw [List.filter_cons]
      by_cases own : first = key
      · subst own
        rw [if_neg (by simp), ih, lookup_cons_eq_if]
        by_cases same : other = first <;> simp [same]
      · rw [if_pos (by simpa using own), lookup_cons_eq_if, lookup_cons_eq_if, ih]
        by_cases same : other = key
        · have differs : other ≠ first := fun equal => own (equal.symm.trans same)
          rw [if_neg differs, if_pos same, if_pos same]
        · rw [if_neg same, if_neg same]

theorem Lanes.mem_of_laneOf (held : lanes.laneOf key = some lane) : (key, lane) ∈ lanes.live := by
  obtain ⟨before, after, split, _⟩ := List.lookup_eq_some_iff.mp held
  simp [split]

/-- Two live keys with one slot are the same key. -/
theorem Lanes.Allotted.key_unique {granted : List Nat} (allotted : lanes.Allotted granted)
    {other : Key} {second : Lane} (held : lanes.laneOf key = some lane)
    (also : lanes.laneOf other = some second) (same : lane.slot = second.slot) : key = other := by
  have distinct : lanes.slots.Nodup := (List.nodup_append.mp allotted.nodup).2.1
  have equal := List.inj_on_of_nodup_map distinct (Lanes.mem_of_laneOf held)
    (Lanes.mem_of_laneOf also) same
  exact congrArg Prod.fst equal

/-- A new key takes the granted slot. -/
theorem Lanes.Allotted.occupy (allotted : lanes.Allotted [lane.slot])
    (fresh : lanes.laneOf key = none) : (lanes.put key lane).Allotted [] := by
  have live : (lanes.put key lane).live = lanes.live ++ [(key, lane)] := by
    simp [Lanes.put, fresh]
  have absent : key ∉ lanes.keys := not_mem_of_lookup_eq_none fresh
  refine ⟨?_, allotted.ascends, ?_⟩
  · rw [Lanes.slots, live, List.map_append]
    refine List.Perm.trans ?_ allotted.slots
    rw [List.nil_append, ← List.append_assoc]
    exact List.perm_append_singleton _ _
  · rw [Lanes.keys, live, List.map_append]
    refine List.nodup_append.mpr ⟨allotted.keys, List.nodup_singleton key, ?_⟩
    intro other member last among same
    obtain rfl : last = key := List.mem_singleton.mp among
    exact absent (same ▸ member)

/-- A live key that gets another lane on its slot changes no slots. -/
theorem Lanes.Allotted.replace {granted : List Nat} (allotted : lanes.Allotted granted)
    {former : Lane} (held : lanes.laneOf key = some former) (same : lane.slot = former.slot) :
    (lanes.put key lane).Allotted granted := by
  have live : (lanes.put key lane).live =
      lanes.live.map fun entry => if entry.1 = key then (key, lane) else entry := by
    simp [Lanes.put, held]
  have keys : (lanes.put key lane).keys = lanes.keys := by
    rw [Lanes.keys, live, List.map_map, Lanes.keys]
    apply List.map_congr_left
    intro entry _
    by_cases own : entry.1 = key <;> simp [own]
  have slots : (lanes.put key lane).slots = lanes.slots := by
    rw [Lanes.slots, live, List.map_map, Lanes.slots]
    apply List.map_congr_left
    intro entry member
    by_cases own : entry.1 = key
    · have equal := List.inj_on_of_nodup_map allotted.keys member (Lanes.mem_of_laneOf held) own
      simp [equal, same]
    · simp [own]
  exact ⟨by rw [slots]; exact allotted.slots, allotted.ascends, by rw [keys]; exact allotted.keys⟩

/-- The slot of a key that is dropped is granted. -/
theorem Lanes.Allotted.drop (allotted : lanes.Allotted []) (held : lanes.laneOf key = some lane) :
    (lanes.drop key).Allotted [lane.slot] := by
  obtain ⟨before, after, split, _⟩ := List.lookup_eq_some_iff.mp held
  have keys := allotted.keys
  rw [Lanes.keys, split, List.map_append, List.map_cons] at keys
  obtain ⟨notBefore, notAfter⟩ : key ∉ before.map Prod.fst ∧ key ∉ after.map Prod.fst := by
    have absent := (List.nodup_cons.mp (List.perm_middle.nodup_iff.mp keys)).1
    exact not_or.mp fun member => absent (List.mem_append.mpr member)
  have kept (part : List (Key × Lane)) (absent : key ∉ part.map Prod.fst) :
      (part.filter fun entry => entry.1 ≠ key) = part := by
    refine List.filter_eq_self.mpr fun entry member => decide_eq_true ?_
    rintro rfl
    exact absent (List.mem_map_of_mem member)
  have live : (lanes.drop key).live = before ++ after := by
    rw [Lanes.drop, split, List.filter_append, List.filter_cons, if_neg (by simp),
      kept before notBefore, kept after notAfter]
  have removed : (lane.slot :: (lanes.drop key).slots).Perm lanes.slots := by
    rw [Lanes.slots, live, Lanes.slots, split, List.map_append, List.map_append, List.map_cons]
    exact List.perm_middle.symm
  refine ⟨?_, allotted.ascends, ?_⟩
  · change (lane.slot :: (lanes.free ++ (lanes.drop key).slots)).Perm (List.range lanes.issued)
    exact (List.perm_middle.symm.trans (removed.append_left lanes.free)).trans allotted.slots
  · exact (List.filter_sublist.map Prod.fst).nodup allotted.keys

/-- The lanes and the lane in which a key will be written: its own, or a new one in a granted slot. -/
def Lanes.assign (lanes : Lanes Key) (key : Key) : Lanes Key × Lane :=
  match lanes.laneOf key with
  | some lane => (lanes, lane)
  | none => (lanes.allocate.2, ⟨lanes.allocate.1, []⟩)

/-- The lanes after a payload for the key was refused: a new key has not been live. -/
def Lanes.refuse (lanes : Lanes Key) (key : Key) : Lanes Key :=
  match lanes.laneOf key with
  | some lane => lanes.put key lane
  | none => lanes.allocate.2.release lanes.allocate.1

theorem Lanes.assign_live (held : lanes.laneOf key = some lane) : (lanes.assign key).2 = lane := by
  rw [Lanes.assign, held]

/-- Only a live key is assigned a lane in which something is noted. -/
theorem Lanes.laneOf_of_mem_assign {quark : Quark} (member : quark ∈ (lanes.assign key).2.written) :
    lanes.laneOf key = some (lanes.assign key).2 := by
  unfold Lanes.assign at *
  split at member
  · assumption
  · cases member

@[simp] theorem Lanes.laneOf_assign (key other : Key) :
    (lanes.assign key).1.laneOf other = lanes.laneOf other := by
  unfold Lanes.assign
  split
  · rfl
  · exact lanes.laneOf_allocate other

@[simp] theorem Lanes.laneOf_refuse (key other : Key) :
    (lanes.refuse key).laneOf other = lanes.laneOf other := by
  unfold Lanes.refuse
  split
  · rename_i held
    rw [Lanes.laneOf_put]
    split_ifs with same
    · rw [same, held]
    · rfl
  · rw [Lanes.laneOf_release, Lanes.laneOf_allocate]

theorem Lanes.place_assign (lanes : Lanes Key) (key : Key) :
    (lanes.assign key).1.parent = lanes.parent ∧ (lanes.assign key).1.slotName = lanes.slotName := by
  unfold Lanes.assign
  split
  · exact ⟨rfl, rfl⟩
  · exact lanes.place_allocate

theorem Lanes.place_refuse (lanes : Lanes Key) (key : Key) :
    (lanes.refuse key).parent = lanes.parent ∧ (lanes.refuse key).slotName = lanes.slotName := by
  unfold Lanes.refuse
  split
  · exact ⟨rfl, rfl⟩
  · exact lanes.place_allocate

/-- A key takes the slot that it was assigned. -/
theorem Lanes.Allotted.assign (allotted : lanes.Allotted []) (key : Key)
    (same : lane.slot = (lanes.assign key).2.slot) :
    ((lanes.assign key).1.put key lane).Allotted [] := by
  unfold Lanes.assign at *
  split at same
  · rename_i held
    exact allotted.replace held same
  · rename_i fresh
    have granted : lanes.allocate.2.Allotted [lane.slot] := by
      rw [same]
      exact allotted.allocate
    exact granted.occupy ((lanes.laneOf_allocate key).trans fresh)

/-- A refused key holds no slot that it did not hold before. -/
theorem Lanes.Allotted.refuse (allotted : lanes.Allotted []) (key : Key) :
    (lanes.refuse key).Allotted [] := by
  unfold Lanes.refuse
  split
  · rename_i held
    exact allotted.replace held rfl
  · exact allotted.allocate.release

end Live

end Chronicle
