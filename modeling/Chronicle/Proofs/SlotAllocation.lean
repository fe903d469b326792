import Chronicle.Proofs.LaneSlots
import Chronicle.Proofs.Writes
import Mathlib.Order.Bounds.Basic

/-!
The slots that keys get over any number of calls, refused ones included: a slot that was issued is free
or held by one live key, and a new key gets the smallest slot that no live key holds.
-/

namespace Chronicle

/-- A call inserts or removes a key, and may do so on any history. -/
inductive LaneCall (Key : Type) where
  | insert (history : History) (key : Key) (time : Time) (payload : List (String × Value))
  | remove (history : History) (key : Key) (time : Time)

section Allotted

variable {Key : Type} {lanes : Lanes Key} {granted : List Nat}

/-- A slot that was issued is granted, free or held. -/
theorem Lanes.Allotted.lt_issued_iff (allotted : lanes.Allotted granted) (slot : Nat) :
    slot < lanes.issued ↔ slot ∈ granted ∨ slot ∈ lanes.free ∨ slot ∈ lanes.slots := by
  rw [← List.mem_range, ← allotted.slots.mem_iff, List.mem_append, List.mem_append]

/-- The slot that is allocated is the smallest one that no live key holds. -/
theorem Lanes.Allotted.isLeast_allocate (allotted : lanes.Allotted []) :
    IsLeast {slot | slot ∉ lanes.slots} lanes.allocate.1 := by
  have apart := (List.nodup_append.mp allotted.nodup).2.2
  have ascends := allotted.ascends
  have split (slot : Nat) := allotted.lt_issued_iff slot
  unfold Lanes.allocate
  cases free : lanes.free with
  | nil =>
      simp only [free, List.not_mem_nil, false_or] at split ⊢
      refine ⟨fun held => ?_, fun slot unheld => ?_⟩
      · exact absurd ((split lanes.issued).mpr held) (Nat.lt_irrefl _)
      · exact Nat.le_of_not_lt fun below => unheld ((split slot).mp below)
  | cons first rest =>
      rw [free] at apart ascends
      simp only [free, List.not_mem_nil, false_or] at split ⊢
      have issued : first < lanes.issued := (split first).mpr (Or.inl List.mem_cons_self)
      refine ⟨fun held => apart first List.mem_cons_self first held rfl, fun slot unheld => ?_⟩
      by_contra below
      have among : slot ∈ first :: rest :=
        ((split slot).mp (by omega)).resolve_right unheld
      rcases List.mem_cons.mp among with same | later
      · omega
      · have order := (List.pairwise_cons.mp ascends).1 slot later
        omega

/-- Where all smaller slots are held, there are as many live keys. -/
theorem Lanes.le_occupancy {slot : Nat} (held : ∀ smaller < slot, smaller ∈ lanes.slots) :
    slot ≤ lanes.occupancy := by
  have within : List.range slot ⊆ lanes.slots := fun smaller member =>
    held smaller (List.mem_range.mp member)
  have length := (List.subperm_of_subset List.nodup_range within).length_le
  rwa [List.length_range, Lanes.slots, List.length_map] at length

end Allotted

section Calls

variable {Key : Type} [DecidableEq Key] {lanes : Lanes Key}

/-- The lane in an entry is the one that its key holds. -/
theorem Lanes.Allotted.laneOf_of_mem {granted : List Nat} (allotted : lanes.Allotted granted)
    {key : Key} {lane : Lane} (member : (key, lane) ∈ lanes.live) :
    lanes.laneOf key = some lane := by
  rcases Option.eq_none_or_eq_some (lanes.laneOf key) with missing | ⟨other, held⟩
  · exact absurd (List.mem_map_of_mem member) (not_mem_of_lookup_eq_none missing)
  · have same := List.inj_on_of_nodup_map allotted.keys (Lanes.mem_of_laneOf held) member rfl
    rw [held, (Prod.mk.inj same).2]

/-- The slots of the lanes are those that live keys hold. -/
theorem Lanes.Allotted.mem_slots_iff {granted : List Nat} (allotted : lanes.Allotted granted)
    (slot : Nat) : slot ∈ lanes.slots ↔ ∃ key, lanes.slotOf key = some slot := by
  simp only [Lanes.slots, List.mem_map, Lanes.slotOf, Option.map_eq_some_iff]
  constructor
  · rintro ⟨entry, member, same⟩
    exact ⟨entry.1, entry.2, allotted.laneOf_of_mem member, same⟩
  · rintro ⟨key, lane, held, same⟩
    exact ⟨(key, lane), Lanes.mem_of_laneOf held, same⟩

/-- Inserting a key leaves it in the slot that it was assigned, or the key is new and refused. -/
theorem Lanes.insert_slots (lanes : Lanes Key) (history : History) (key : Key) (time : Time)
    (payload : List (String × Value)) :
    (∃ lane, lane.slot = (lanes.assign key).2.slot ∧
      (lanes.insert history key time payload).state.1 = (lanes.assign key).1.put key lane ∧
      ∀ slot, (lanes.insert history key time payload).result = .ok slot → slot = lane.slot) ∨
    (lanes.laneOf key = none ∧
      (lanes.insert history key time payload).state.1 = lanes.refuse key ∧
      ∃ error, (lanes.insert history key time payload).result = .error error) := by
  unfold Lanes.insert Lanes.assign Lanes.refuse
  cases held : lanes.laneOf key with
  | some lane =>
      let written := (lanes.writePayload history lane.slot time payload).state.written
      refine Or.inl ⟨lane.note written, rfl, ?_⟩
      dsimp only
      split
      · exact ⟨rfl, fun slot same => (Except.ok.inj same).symm⟩
      · exact ⟨rfl, fun slot impossible => by cases impossible⟩
  | none =>
      dsimp only
      split
      · refine Or.inl ⟨_, rfl, rfl, fun slot same => ?_⟩
        exact (Except.ok.inj same).symm
      · exact Or.inr ⟨rfl, rfl, _, rfl⟩

/-- Removing a key frees its slot, or changes nothing. -/
theorem Lanes.remove_slots (lanes : Lanes Key) (history : History) (key : Key) (time : Time) :
    (lanes.remove history key time).state.1 = lanes ∨
    ∃ lane, lanes.laneOf key = some lane ∧
      (lanes.remove history key time).state.1 = (lanes.drop key).release lane.slot := by
  unfold Lanes.remove
  cases held : lanes.laneOf key with
  | none => exact Or.inl rfl
  | some lane =>
      dsimp only
      rw [Attempt.state_andThen]
      split
      · exact Or.inr ⟨lane, rfl, rfl⟩
      · exact Or.inl rfl

/-- The lanes after a call, which may have been refused. -/
def Lanes.call (lanes : Lanes Key) : LaneCall Key → Lanes Key
  | .insert history key time payload => (lanes.insert history key time payload).state.1
  | .remove history key time => (lanes.remove history key time).state.1

def Lanes.callAll (lanes : Lanes Key) (calls : List (LaneCall Key)) : Lanes Key :=
  calls.foldl Lanes.call lanes

/-- The largest number of keys that are live at once, from the first call to the last. -/
def Lanes.peak (lanes : Lanes Key) : List (LaneCall Key) → Nat
  | [] => lanes.occupancy
  | call :: rest => max lanes.occupancy ((lanes.call call).peak rest)

/-- Every call leaves the issued slots allotted. -/
theorem Lanes.Allotted.call (allotted : lanes.Allotted []) (call : LaneCall Key) :
    (lanes.call call).Allotted [] := by
  cases call with
  | insert history key time payload =>
      rw [Lanes.call]
      rcases lanes.insert_slots history key time payload with
        ⟨lane, same, left, _⟩ | ⟨_, left, _⟩
      · rw [left]
        exact allotted.assign key same
      · rw [left]
        exact allotted.refuse key
  | remove history key time =>
      rw [Lanes.call]
      rcases lanes.remove_slots history key time with left | ⟨lane, held, left⟩
      · rwa [left]
      · rw [left]
        exact (allotted.drop held).release

theorem Lanes.Allotted.callAll (allotted : lanes.Allotted []) (calls : List (LaneCall Key)) :
    (lanes.callAll calls).Allotted [] := by
  induction calls generalizing lanes with
  | nil => exact allotted
  | cons call rest ih => exact ih (allotted.call call)

/-- A new key is assigned the smallest slot that no live key holds. -/
theorem Lanes.Allotted.isLeast_assign (allotted : lanes.Allotted []) {key : Key}
    (fresh : lanes.laneOf key = none) :
    IsLeast {slot | ∀ other, lanes.slotOf other ≠ some slot} (lanes.assign key).2.slot := by
  have least := allotted.isLeast_allocate
  simp only [allotted.mem_slots_iff, not_exists] at least
  simpa only [Lanes.assign, fresh] using least

/-- Only the key that is written gets the lane. -/
theorem Lanes.slotOf_put_assign (lanes : Lanes Key) (key other : Key) (lane : Lane) :
    ((lanes.assign key).1.put key lane).slotOf other =
      if other = key then some lane.slot else lanes.slotOf other := by
  rw [Lanes.slotOf, Lanes.laneOf_put, Lanes.laneOf_assign]
  split_ifs <;> rfl

/-- A new key that gets a slot is one more live key than there are smaller slots. -/
theorem Lanes.Allotted.lt_occupancy_put (allotted : lanes.Allotted []) {key : Key}
    (fresh : lanes.laneOf key = none) {lane : Lane} (same : lane.slot = (lanes.assign key).2.slot) :
    lane.slot < ((lanes.assign key).1.put key lane).occupancy := by
  have after := allotted.assign key same
  have least := allotted.isLeast_assign fresh
  apply Lanes.le_occupancy
  intro slot within
  rw [after.mem_slots_iff]
  rcases Nat.lt_succ_iff_lt_or_eq.mp within with below | equal
  · have held : ∃ other, lanes.slotOf other = some slot := by
      by_contra unheld
      have order := least.2 (not_exists.mp unheld)
      omega
    obtain ⟨other, held⟩ := held
    have apart : other ≠ key := by
      intro equal
      rw [equal, Lanes.slotOf, fresh] at held
      cases held
    exact ⟨other, by rw [Lanes.slotOf_put_assign, if_neg apart, held]⟩
  · exact ⟨key, by rw [Lanes.slotOf_put_assign, if_pos rfl, equal]⟩

/-- A slot that is held after a call was held before it, or is smaller than the number of live keys. -/
theorem Lanes.Allotted.held_or_lt (allotted : lanes.Allotted []) (call : LaneCall Key) {key : Key}
    {slot : Nat} (held : (lanes.call call).slotOf key = some slot) :
    lanes.slotOf key = some slot ∨ slot < (lanes.call call).occupancy := by
  cases call with
  | insert history target time payload =>
      rw [Lanes.call] at held ⊢
      rcases lanes.insert_slots history target time payload with
        ⟨lane, same, left, _⟩ | ⟨_, left, _⟩
      · rw [left] at held ⊢
        rw [Lanes.slotOf_put_assign] at held
        split_ifs at held with own
        · obtain rfl := Option.some.inj held
          cases before : lanes.laneOf target with
          | none => exact Or.inr (allotted.lt_occupancy_put before same)
          | some former =>
              refine Or.inl ?_
              rw [own, Lanes.slotOf, before, same, Lanes.assign_live before, Option.map_some]
        · exact Or.inl held
      · rw [left, Lanes.slotOf, Lanes.laneOf_refuse] at held
        exact Or.inl held
  | remove history target time =>
      rw [Lanes.call] at held ⊢
      rcases lanes.remove_slots history target time with left | ⟨lane, _, left⟩
      · rw [left] at held
        exact Or.inl held
      · rw [left, Lanes.slotOf, Lanes.laneOf_release, Lanes.laneOf_drop] at held
        split_ifs at held with own
        · cases held
        · exact Or.inl held

theorem Lanes.occupancy_le_peak (lanes : Lanes Key) (calls : List (LaneCall Key)) :
    lanes.occupancy ≤ lanes.peak calls := by
  cases calls with
  | nil => exact Nat.le_refl _
  | cons call rest => exact Nat.le_max_left _ _

/-- Slots that are held after some calls stay below the peak, or were held before them. -/
theorem Lanes.Allotted.held_or_lt_peak (allotted : lanes.Allotted []) (calls : List (LaneCall Key))
    {key : Key} {slot : Nat} (held : (lanes.callAll calls).slotOf key = some slot) :
    lanes.slotOf key = some slot ∨ slot < lanes.peak calls := by
  induction calls generalizing lanes with
  | nil => exact Or.inl held
  | cons call rest ih =>
      rw [Lanes.peak]
      rcases ih (allotted.call call) held with before | below
      · refine (allotted.held_or_lt call before).imp_right fun below => ?_
        have most := (lanes.call call).occupancy_le_peak rest
        omega
      · exact Or.inr (by omega)

/-- Two keys that hold one slot are the same key. -/
theorem Lanes.Allotted.slot_unique (allotted : lanes.Allotted []) {first second : Key} {slot : Nat}
    (held : lanes.slotOf first = some slot) (also : lanes.slotOf second = some slot) :
    first = second := by
  obtain ⟨former, owned, rfl⟩ := Option.map_eq_some_iff.mp held
  obtain ⟨latter, again, same⟩ := Option.map_eq_some_iff.mp also
  exact allotted.key_unique owned again same.symm

/-- A live key keeps its slot when it is inserted again, and no other slot is answered. -/
theorem Lanes.insert_live_slot (history : History) {key : Key} (time : Time)
    (payload : List (String × Value)) {slot : Nat} (held : lanes.slotOf key = some slot) :
    (lanes.insert history key time payload).state.1.slotOf key = some slot ∧
      ∀ answer, (lanes.insert history key time payload).result = .ok answer → answer = slot := by
  obtain ⟨former, owned, rfl⟩ := Option.map_eq_some_iff.mp held
  rcases lanes.insert_slots history key time payload with
    ⟨lane, same, left, answered⟩ | ⟨fresh, _⟩
  · rw [Lanes.assign_live owned] at same
    rw [left, Lanes.slotOf_put_assign, if_pos rfl, same]
    exact ⟨rfl, fun answer done => (answered answer done).trans same⟩
  · rw [owned] at fresh
    cases fresh

/-- A new key that is inserted gets the smallest slot that no live key holds. -/
theorem Lanes.Allotted.insert_new_slot (allotted : lanes.Allotted []) (history : History)
    {key : Key} (time : Time) (payload : List (String × Value)) {slot : Nat} (absent : lanes.slotOf key = none)
    (done : (lanes.insert history key time payload).result = .ok slot) :
    IsLeast {free | ∀ other, lanes.slotOf other ≠ some free} slot ∧
      (lanes.insert history key time payload).state.1.slotOf key = some slot := by
  have fresh : lanes.laneOf key = none := Option.map_eq_none_iff.mp absent
  rcases lanes.insert_slots history key time payload with
    ⟨lane, same, left, answered⟩ | ⟨_, _, error, refused⟩
  · obtain rfl := answered slot done
    rw [left, Lanes.slotOf_put_assign, if_pos rfl, same]
    exact ⟨allotted.isLeast_assign fresh, rfl⟩
  · rw [refused] at done
    cases done

/-- However keys come and go: live keys hold different slots; the slots that were issued are those that
are free, each once, and those that live keys hold; a live key keeps its slot when it is inserted again;
a new key gets the smallest slot that no live key holds; and every slot that is held is smaller than
the largest number of keys that were live at once. -/
theorem Lanes.slot_allocation (parent : Quark) (width : Nat) (calls : List (LaneCall Key)) :
    let start : Lanes Key := Lanes.empty parent width
    let lanes := start.callAll calls
    (∀ first second slot, lanes.slotOf first = some slot → lanes.slotOf second = some slot →
      first = second) ∧
    lanes.free.Nodup ∧
    (∀ slot ∈ lanes.free, ∀ key, lanes.slotOf key ≠ some slot) ∧
    (∀ slot, slot < lanes.issued ↔ slot ∈ lanes.free ∨ ∃ key, lanes.slotOf key = some slot) ∧
    (∀ history key time payload slot, lanes.slotOf key = some slot →
      (lanes.insert history key time payload).state.1.slotOf key = some slot ∧
      ∀ answer, (lanes.insert history key time payload).result = .ok answer → answer = slot) ∧
    (∀ history key time payload slot, lanes.slotOf key = none →
      (lanes.insert history key time payload).result = .ok slot →
        IsLeast {free | ∀ other, lanes.slotOf other ≠ some free} slot ∧
        (lanes.insert history key time payload).state.1.slotOf key = some slot) ∧
    ∀ key slot, lanes.slotOf key = some slot → slot < start.peak calls := by
  intro start lanes
  have initial : start.Allotted [] := Lanes.allotted_empty parent width
  have allotted : lanes.Allotted [] := initial.callAll calls
  obtain ⟨distinct, _, apart⟩ := List.nodup_append.mp allotted.nodup
  refine ⟨fun first second slot => allotted.slot_unique, distinct, ?_, ?_, ?_, ?_, ?_⟩
  · intro slot free key held
    exact apart slot free slot ((allotted.mem_slots_iff slot).mpr ⟨key, held⟩) rfl
  · intro slot
    rw [allotted.lt_issued_iff, allotted.mem_slots_iff]
    simp only [List.not_mem_nil, false_or]
  · intro history key time payload slot held
    exact Lanes.insert_live_slot history time payload held
  · intro history key time payload slot absent done
    exact allotted.insert_new_slot history time payload absent done
  · intro key slot held
    refine (initial.held_or_lt_peak calls held).resolve_left ?_
    intro impossible
    cases impossible

end Calls

/-- Three keys come, the first two leave again, and a key comes whose payload is refused. -/
def diskCalls : List (LaneCall Nat) :=
  let history := History.empty.writeAll [.resolve none ["disk"]]
  [.insert history 100 1 [], .insert history 200 2 [], .insert history 300 3 [("status", .int 1)],
    .remove history 200 4, .remove history 100 5, .insert history 400 6 [("status", .int 2)],
    .insert .empty 500 7 []]

/-- After these calls the slots 0 and 2 are held, and the next key gets slot 1 and not slot 3. -/
theorem Lanes.slot_allocation_of_disk :
    let lanes := (Lanes.empty 0 3 : Lanes Nat).callAll diskCalls
    let history := History.empty.writeAll [.resolve none ["disk"]]
    lanes.slotOf 400 = some 0 ∧ lanes.slotOf 300 = some 2 ∧ lanes.slotOf 600 = none ∧
      (lanes.insert history 600 8 []).result = .ok 1 ∧
      IsLeast {free | ∀ other, lanes.slotOf other ≠ some free} 1 ∧
      2 < (Lanes.empty 0 3 : Lanes Nat).peak diskCalls := by
  intro lanes history
  obtain ⟨_, _, _, _, _, smallest, bounded⟩ := Lanes.slot_allocation 0 3 diskCalls
  have held : lanes.slotOf 300 = some 2 := by decide
  have absent : lanes.slotOf 600 = none := by decide
  have done : (lanes.insert history 600 8 []).result = .ok 1 := by decide
  exact ⟨by decide, held, absent, done, (smallest history 600 8 [] 1 absent done).1,
    bounded 300 2 held⟩

end Chronicle
