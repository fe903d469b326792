import Chronicle.Proofs.LaneWrites
import Chronicle.Proofs.RecordedPast
import Chronicle.Proofs.SlotAllocation

/-!
Using lanes is all or nothing: a call that fails leaves the history and the lanes as they were, up to
attributes that were created and a slot that was issued ahead, and a payload that is accepted is
written as a whole.
-/

namespace Chronicle

section Answers

variable {Key : Type} {lanes : Lanes Key}

/-- Slots are issued ahead when they are free though no key ever held them. -/
def Lanes.issueAhead (lanes : Lanes Key) (count : Nat) : Lanes Key :=
  { lanes with
    free := lanes.free ++ List.range' lanes.issued count
    issued := lanes.issued + count }

/-- The slot that is allocated does not depend on the slots that were issued ahead. -/
theorem Lanes.allocate_issueAhead (lanes : Lanes Key) (count : Nat) :
    ∃ left, (lanes.issueAhead count).allocate =
      (lanes.allocate.1, lanes.allocate.2.issueAhead left) := by
  cases free : lanes.free with
  | cons slot rest => exact ⟨count, by simp [Lanes.allocate, Lanes.issueAhead, free]⟩
  | nil =>
      cases count with
      | zero => exact ⟨0, by simp [Lanes.allocate, Lanes.issueAhead, free]⟩
      | succ count =>
          refine ⟨count, ?_⟩
          simp only [Lanes.allocate, Lanes.issueAhead, free, List.nil_append, List.range'_succ]
          rw [Nat.add_right_comm, Nat.add_assoc lanes.issued]

/-- A slot that was issued goes before all slots that are issued ahead. -/
theorem Lanes.release_issueAhead {slot : Nat} (given : slot < lanes.issued) (count : Nat) :
    (lanes.issueAhead count).release slot = (lanes.release slot).issueAhead count := by
  have least : ∀ other ∈ List.range' lanes.issued count, slot ≤ other := by
    intro other member
    have ahead := (List.mem_range'_1.mp member).1
    omega
  simp only [Lanes.release, Lanes.issueAhead, Ascending.insert_append lanes.free least]

variable [DecidableEq Key]

/-- Inserting a key answers the same and leaves the same, but for the slots that are issued ahead. -/
theorem Lanes.Allotted.insert_issueAhead (allotted : lanes.Allotted []) (history : History)
    (key : Key) (time : Time) (payload : List (String × Value)) (count : Nat) :
    ∃ left, (lanes.issueAhead count).insert history key time payload =
      (lanes.insert history key time payload).within fun state =>
        (state.1.issueAhead left, state.2) := by
  have same (others : Lanes Key) (ahead : Nat) :
      (others.issueAhead ahead).writePayload = others.writePayload :=
    others.writePayload_congr ⟨rfl, rfl⟩
  have live : (lanes.issueAhead count).laneOf key = lanes.laneOf key := rfl
  unfold Lanes.insert
  rw [live]
  cases lanes.laneOf key with
  | some lane =>
      refine ⟨count, ?_⟩
      dsimp only
      rw [same]
      split <;> rfl
  | none =>
      obtain ⟨left, granted⟩ := lanes.allocate_issueAhead count
      refine ⟨left, ?_⟩
      have given : lanes.allocate.1 < lanes.allocate.2.issued :=
        (allotted.allocate.lt_issued_iff _).mpr (Or.inl List.mem_cons_self)
      rw [granted]
      dsimp only
      rw [same, Lanes.release_issueAhead given]
      split <;> rfl

/-- Removing a key answers the same and leaves the same, but for the slots that are issued ahead. -/
theorem Lanes.Allotted.remove_issueAhead (allotted : lanes.Allotted []) (history : History)
    (key : Key) (time : Time) (count : Nat) :
    (lanes.issueAhead count).remove history key time =
      (lanes.remove history key time).within fun state =>
        (state.1.issueAhead count, state.2) := by
  have live : (lanes.issueAhead count).laneOf key = lanes.laneOf key := rfl
  unfold Lanes.remove
  rw [live]
  cases held : lanes.laneOf key with
  | none => rfl
  | some lane =>
      have given : lane.slot < (lanes.drop key).issued :=
        ((allotted.drop held).lt_issued_iff _).mpr (Or.inl List.mem_cons_self)
      have left : ((lanes.issueAhead count).drop key).release lane.slot =
          ((lanes.drop key).release lane.slot).issueAhead count :=
        Lanes.release_issueAhead given count
      dsimp only
      rw [left]
      unfold Attempt.andThen Attempt.within
      dsimp only
      split <;> rfl

/-- A call answers the slot that its key gets, or the slot that its key leaves. -/
def Lanes.answer (lanes : Lanes Key) : LaneCall Key → Except HistoryError (Option Nat)
  | .insert history key time payload => (lanes.insert history key time payload).result.map some
  | .remove history key time => (lanes.remove history key time).result

/-- The answers to calls one after the other, refused ones included. -/
def Lanes.answers (lanes : Lanes Key) :
    List (LaneCall Key) → List (Except HistoryError (Option Nat))
  | [] => []
  | call :: rest => lanes.answer call :: (lanes.call call).answers rest

theorem Lanes.Allotted.call_issueAhead (allotted : lanes.Allotted []) (call : LaneCall Key)
    (count : Nat) :
    (lanes.issueAhead count).answer call = lanes.answer call ∧
      ∃ left, (lanes.issueAhead count).call call = (lanes.call call).issueAhead left := by
  cases call with
  | insert history key time payload =>
      obtain ⟨left, same⟩ := allotted.insert_issueAhead history key time payload count
      rw [Lanes.answer, Lanes.call, same]
      exact ⟨rfl, left, rfl⟩
  | remove history key time =>
      rw [Lanes.answer, Lanes.call, allotted.remove_issueAhead history key time count]
      exact ⟨rfl, count, rfl⟩

/-- No answer shows how many slots were issued ahead. -/
theorem Lanes.Allotted.answers_issueAhead (allotted : lanes.Allotted []) (count : Nat)
    (calls : List (LaneCall Key)) : (lanes.issueAhead count).answers calls = lanes.answers calls := by
  -- A call may use a slot that was issued ahead, so the number of them changes along the way.
  induction calls generalizing lanes count with
  | nil => rfl
  | cons call rest ih =>
      obtain ⟨answer, left, after⟩ := allotted.call_issueAhead call count
      rw [Lanes.answers, Lanes.answers, answer, after, ih (allotted.call call)]

/-- Putting a lane for the key that holds it changes nothing. -/
theorem Lanes.Allotted.put_held (allotted : lanes.Allotted []) {key : Key} {lane : Lane}
    (held : lanes.laneOf key = some lane) : lanes.put key lane = lanes := by
  have own : ∀ entry ∈ lanes.live, (if entry.1 = key then (key, lane) else entry) = entry := by
    intro entry member
    split_ifs with same
    · obtain rfl := same
      have present : lanes.laneOf entry.1 = some entry.2 := allotted.laneOf_of_mem member
      rw [Option.some.inj (held.symm.trans present)]
    · rfl
  have live : (lanes.live.map fun entry => if entry.1 = key then (key, lane) else entry) =
      lanes.live := (List.map_congr_left own).trans (List.map_id lanes.live)
  rw [Lanes.put, held]
  simp only [Option.isSome_some, if_true, live]

/-- A key that is refused leaves the lanes as they were, or the slot for it was issued ahead. -/
theorem Lanes.Allotted.refuse_eq (allotted : lanes.Allotted []) (key : Key) :
    ∃ count, lanes.refuse key = lanes.issueAhead count := by
  have unchanged : lanes.issueAhead 0 = lanes := by simp [Lanes.issueAhead]
  unfold Lanes.refuse
  cases held : lanes.laneOf key with
  | some lane => exact ⟨0, (allotted.put_held held).trans unchanged.symm⟩
  | none =>
      cases free : lanes.free with
      | nil =>
          refine ⟨1, ?_⟩
          simp [Lanes.allocate, Lanes.release, Lanes.issueAhead, Ascending.insert, free]
      | cons slot rest =>
          -- The smallest free slot was taken, so it goes back to where it was.
          have ascends := allotted.ascends
          rw [free] at ascends
          have back : Ascending.insert slot rest = lanes.free :=
            (Ascending.insert_least (List.pairwise_cons.mp ascends).1).trans free.symm
          have allocated : lanes.allocate = (slot, { lanes with free := rest }) := by
            rw [Lanes.allocate, free]
          refine ⟨0, ?_⟩
          rw [unchanged, allocated, Lanes.release, back]

end Answers

section Calls

variable {Key : Type} [DecidableEq Key] {lanes : Lanes Key} {history : History}

/-- Lanes and their history go on by a call of any kind on the history, or by inserting or removing a
key. Calls that fail count as well. -/
inductive Lanes.Step : Lanes Key × History → Lanes Key × History → Prop
  | call (lanes : Lanes Key) {history next : History} (call : history.Call next) :
      Step (lanes, history) (lanes, next)
  | insert (lanes : Lanes Key) (history : History) (key : Key) (time : Time)
      (payload : List (String × Value)) :
      Step (lanes, history) (lanes.insert history key time payload).state
  | remove (lanes : Lanes Key) (history : History) (key : Key) (time : Time) :
      Step (lanes, history) (lanes.remove history key time).state

/-- New lanes below any parent, issued or not, become these ones, and the history is the only one that
they were used on. -/
def Lanes.UsedOn (lanes : Lanes Key) (history : History) : Prop :=
  ∃ parent width, Relation.ReflTransGen Lanes.Step (Lanes.empty parent width, History.empty)
    (lanes, history)

/-- Lanes match a sound history when their slots are allotted and all that is noted for live keys is in
the tree. -/
structure Lanes.Matches (lanes : Lanes Key) (history : History) : Prop where
  sound : history.Sound
  allotted : lanes.Allotted []
  known : ∀ key lane, lanes.laneOf key = some lane →
    ∀ quark ∈ lane.written, history.tree.contains quark = true

theorem Lanes.matches_empty (parent : Quark) (width : Nat) :
    (Lanes.empty parent width : Lanes Key).Matches History.empty where
  sound := History.sound_empty
  allotted := Lanes.allotted_empty parent width
  known := by
    intro key lane impossible
    cases impossible

/-- Lanes still match when the history goes on without them. -/
theorem Lanes.Matches.call (before : lanes.Matches history) {next : History}
    (call : history.Call next) : lanes.Matches next := by
  have path : history.Continues next := Relation.ReflTransGen.single call
  refine ⟨path.sound before.sound, before.allotted, fun key lane held quark member => ?_⟩
  exact (path.grows before.sound).contains (before.known key lane held quark member)

/-- Inserting a key, also in vain, keeps the lanes matched. -/
theorem Lanes.Matches.insert (before : lanes.Matches history) (key : Key) (time : Time)
    (payload : List (String × Value)) :
    let after := (lanes.insert history key time payload).state
    after.1.Matches after.2 := by
  dsimp only
  rcases lanes.insert_cases before.sound key time payload with
    ⟨error, grown, refused, linked, grows, _⟩ |
    ⟨place, entries, after, done, stamped, reached, names, _⟩
  · rw [refused]
    refine ⟨before.sound.withTree linked grows, before.allotted.refuse key, ?_⟩
    intro other lane held quark member
    rw [Attempt.state_fail, Lanes.laneOf_refuse] at held
    exact grows.contains (before.known other lane held quark member)
  · rw [done]
    refine ⟨stamped.sound, before.allotted.assign key rfl, ?_⟩
    intro other lane held quark member
    have kept {former : Lane} (present : lanes.laneOf other = some former)
        (among : quark ∈ former.written) : after.tree.contains quark = true :=
      stamped.grows.contains (before.known other former present quark among)
    rw [Attempt.state_done, Lanes.laneOf_put, Lanes.laneOf_assign] at held
    split_ifs at held with same
    · obtain rfl := Option.some.inj held
      subst same
      rcases (Lane.mem_note _ _ quark).mp member with noted | written
      · exact kept (Lanes.laneOf_of_mem_assign noted) noted
      · obtain ⟨rest, leads⟩ := Tree.walk_of_names reached names quark written
        have linked := stamped.sound.linked
        exact linked.contains_of_walk (linked.contains_of_step reached).1 leads
    · exact kept held member

/-- Removing a key, also in vain, keeps the lanes matched. -/
theorem Lanes.Matches.remove (before : lanes.Matches history) (key : Key) (time : Time) :
    let after := (lanes.remove history key time).state
    after.1.Matches after.2 := by
  dsimp only
  rcases lanes.remove_cases before.sound key time (fun lane => before.known key lane) with
    ⟨_, absent⟩ | ⟨error, refused⟩ | ⟨lane, after, held, done, stamped⟩
  · rw [absent]
    exact before
  · rw [refused]
    exact before
  · rw [done]
    refine ⟨stamped.sound, (before.allotted.drop held).release, ?_⟩
    intro other another present quark member
    rw [Attempt.state_done, Lanes.laneOf_release, Lanes.laneOf_drop] at present
    split_ifs at present
    · exact stamped.grows.contains (before.known other another present quark member)

theorem Lanes.Matches.step {next : Lanes Key × History} (before : lanes.Matches history)
    (step : Lanes.Step (lanes, history) next) : next.1.Matches next.2 := by
  cases step with
  | call _ call => exact before.call call
  | insert _ _ key time payload => exact before.insert key time payload
  | remove _ _ key time => exact before.remove key time

/-- However lanes and their history are used, they match. -/
theorem Lanes.UsedOn.matches (used : lanes.UsedOn history) : lanes.Matches history := by
  obtain ⟨parent, width, path⟩ := used
  have run : ∀ pair, Relation.ReflTransGen Lanes.Step
      ((Lanes.empty parent width : Lanes Key), History.empty) pair → pair.1.Matches pair.2 := by
    intro pair path
    induction path with
    | refl => exact Lanes.matches_empty parent width
    | tail _ step ih => exact ih.step step
  exact run (lanes, history) path

/-- A key that is refused leaves lanes and history as they were, up to attributes that were created and
a slot that was issued ahead. -/
theorem Lanes.Matches.insert_refused (before : lanes.Matches history) {key : Key} {time : Time}
    {payload : List (String × Value)} {error : HistoryError}
    (refused : (lanes.insert history key time payload).result = .error error) :
    ∃ count grown, history.tree.Grows grown ∧ (lanes.insert history key time payload).state =
      (lanes.issueAhead count, history.withTree grown) := by
  rcases lanes.insert_cases before.sound key time payload with
    ⟨_, grown, failed, _, grows, _⟩ | ⟨_, _, _, done, _⟩
  · obtain ⟨count, left⟩ := before.allotted.refuse_eq key
    rw [failed, left]
    exact ⟨count, grown, grows, rfl⟩
  · rw [done] at refused
    cases refused

theorem entryPath_injective : Function.Injective entryPath := by
  intro first second same
  unfold entryPath at same
  split_ifs at same with empty also
  · rw [empty, also]
  · exact (List.cons.inj same).1

/-- Different names lead to different attributes of a slot. -/
theorem Tree.Linked.name_unique {tree : Tree} (linked : tree.Linked) {slot quark : Quark}
    (inside : tree.contains slot = true) {name other : String}
    (reached : tree.walk (some slot) (entryPath name) = some quark)
    (again : tree.walk (some slot) (entryPath other) = some quark) : name = other := by
  have path := ((linked.walk_some_iff inside _ quark).mp reached).2
  have same := ((linked.walk_some_iff inside _ quark).mp again).2
  exact entryPath_injective (List.append_cancel_left (path.symm.trans same))

/-- The first value given for a name is the first one given for its attribute. -/
theorem Tree.Names.lookup {tree : Tree} (linked : tree.Linked) {slot : Quark}
    (inside : tree.contains slot = true) {payload : List (String × Value)}
    {entries : List (Quark × Value)} (names : tree.Names slot payload entries) {name : String}
    {value : Value} (given : payload.lookup name = some value) :
    ∃ quark, tree.walk (some slot) (entryPath name) = some quark ∧
      entries.lookup quark = some value := by
  induction names with
  | nil => cases given
  | @cons named entry _ _ leads _ ih =>
      rw [lookup_cons_eq_if] at given
      split_ifs at given with own
      · refine ⟨entry.1, own ▸ leads.1, ?_⟩
        rw [lookup_cons_eq_if, if_pos rfl, ← leads.2]
        exact given
      · obtain ⟨quark, reached, held⟩ := ih given
        refine ⟨quark, reached, ?_⟩
        rw [lookup_cons_eq_if, if_neg, held]
        rintro rfl
        exact own (linked.name_unique inside reached leads.1)

/-- A key that is accepted leaves at its time, for every name in the payload, the last value that is
given for it. -/
theorem Lanes.Matches.insert_accepted (before : lanes.Matches history) {key : Key} {time : Time}
    {payload : List (String × Value)} {slot : Nat}
    (accepted : (lanes.insert history key time payload).result = .ok slot) {name : String}
    {value : Value} (last : payload.reverse.lookup name = some value) :
    let after := (lanes.insert history key time payload).state.2
    ∃ quark,
      after.tree.find (some lanes.parent) (lanes.slotName slot :: entryPath name) = some quark ∧
        after.valueAt quark time = .ok value := by
  rcases lanes.insert_cases before.sound key time payload with
    ⟨error, grown, failed, _⟩ | ⟨place, entries, after, done, stamped, reached, names, _⟩
  · rw [failed] at accepted
    cases accepted
  · rw [done] at accepted
    obtain rfl := Except.ok.inj accepted
    have linked := stamped.sound.linked
    obtain ⟨above, inside⟩ := linked.contains_of_step reached
    have backwards : after.tree.Names place payload.reverse entries.reverse :=
      List.forall₂_reverse_iff.mpr names
    obtain ⟨quark, leads, given⟩ := backwards.lookup linked inside last
    rw [done]
    refine ⟨quark, ?_, stamped.sound.valueAt_ongoing (stamped.held quark value given)⟩
    rw [Attempt.state_done, Tree.find, if_pos above, ← List.singleton_append,
      Tree.walk_append _ (List.cons_ne_nil _ _), reached]
    exact leads

/-- Removing a key in vain changes nothing. -/
theorem Lanes.Matches.remove_refused (before : lanes.Matches history) {key : Key} {time : Time}
    {error : HistoryError} (refused : (lanes.remove history key time).result = .error error) :
    (lanes.remove history key time).state = (lanes, history) := by
  rcases lanes.remove_cases before.sound key time (fun lane => before.known key lane) with
    ⟨_, absent⟩ | ⟨_, failed⟩ | ⟨lane, after, _, done, _⟩
  · rw [absent, Attempt.state_done]
  · rw [failed, Attempt.state_fail]
  · rw [done] at refused
    cases refused

/-- In order, any key is inserted below an attribute of the tree. -/
theorem Lanes.Matches.insert_ready (before : lanes.Matches history) {time : Time}
    (ready : history.writeFault time = none)
    (inside : history.tree.contains lanes.parent = true) (key : Key)
    (payload : List (String × Value)) :
    ∃ slot, (lanes.insert history key time payload).result = .ok slot := by
  obtain ⟨writing, done⟩ :=
    lanes.writePayload_ready before.sound ready inside (lanes.assign key).2.slot payload
  rw [lanes.insert_done done]
  exact ⟨(lanes.assign key).2.slot, rfl⟩

/-- In order, any key is removed. -/
theorem Lanes.Matches.remove_ready (before : lanes.Matches history) {time : Time}
    (ready : history.writeFault time = none) (key : Key) :
    ∃ left, (lanes.remove history key time).result = .ok left := by
  unfold Lanes.remove
  cases held : lanes.laneOf key with
  | none => exact ⟨none, rfl⟩
  | some lane =>
      obtain ⟨after, done, _⟩ := before.sound.clear_ready ready (before.known key lane held)
      dsimp only
      rw [done]
      exact ⟨some lane.slot, rfl⟩

/-- However lanes and their history are used: when inserting a key fails, the history differs at most by
attributes that were created, the live keys with their slots and noted attributes are as before, and
all later calls answer as they would have; when it succeeds, every name of the payload holds at that
time the last value given for it; and when removing a key fails, nothing has changed. While the history
is open and the time is in order, removing a key succeeds, and so does inserting one below a parent that
is in the tree. -/
theorem Lanes.all_or_nothing (used : lanes.UsedOn history) (key : Key) (time : Time)
    (payload : List (String × Value)) :
    let inserted := lanes.insert history key time payload
    let removed := lanes.remove history key time
    (∀ error, inserted.result = .error error →
      (∃ grown, history.tree.Grows grown ∧ inserted.state.2 = history.withTree grown) ∧
      inserted.state.1.live = lanes.live ∧
      ∀ calls, inserted.state.1.answers calls = lanes.answers calls) ∧
    (∀ slot, inserted.result = .ok slot →
      ∀ name value, payload.reverse.lookup name = some value → ∃ quark,
        inserted.state.2.tree.find (some lanes.parent) (lanes.slotName slot :: entryPath name) =
          some quark ∧
        inserted.state.2.valueAt quark time = .ok value) ∧
    (∀ error, removed.result = .error error → removed.state = (lanes, history)) ∧
    (history.writeFault time = none →
      (∃ left, removed.result = .ok left) ∧
      (history.tree.contains lanes.parent = true → ∃ slot, inserted.result = .ok slot)) := by
  intro inserted removed
  have before := used.matches
  refine ⟨?_, fun slot accepted name value => before.insert_accepted accepted,
    fun error refused => before.remove_refused refused,
    fun ready => ⟨before.remove_ready ready key,
      fun inside => before.insert_ready ready inside key payload⟩⟩
  intro error refused
  obtain ⟨count, grown, grows, left⟩ := before.insert_refused refused
  refine ⟨⟨grown, grows, congrArg Prod.snd left⟩, congrArg (fun state => state.1.live) left, ?_⟩
  intro calls
  have ahead : inserted.state.1 = lanes.issueAhead count := congrArg Prod.fst left
  rw [ahead, before.allotted.answers_issueAhead]

end Calls

/-- One key is live below the disk. -/
def loadedDisk : Lanes Nat × History :=
  ((Lanes.empty 0 3).insert (History.empty.writeAll [.resolve none ["disk"]]) 100 10
    [("status", .long 1)]).state

/-- A new key whose time is past is refused, and the next one gets the slot 1 all the same. A name that
comes twice holds the second value, and the live key leaves at a time in order and at no time that is
past. -/
theorem Lanes.all_or_nothing_of_disk :
    let lanes := loadedDisk.1
    let history := loadedDisk.2
    let refused := lanes.insert history 200 5 [("status", .long 2)]
    let accepted := lanes.insert history 300 12 [("status", .long 2), ("status", .long 3)]
    let stale := lanes.remove history 100 5
    refused.result = .error (.timeBeforeLatest 5 10) ∧
      refused.state.1.answers [.insert history 300 12 []] = [.ok (some 1)] ∧
      accepted.result = .ok 1 ∧
      (∃ quark, accepted.state.2.tree.find (some 0) ["001", "status"] = some quark ∧
        accepted.state.2.valueAt quark 12 = .ok (.long 3)) ∧
      stale.result = .error (.timeBeforeLatest 5 10) ∧ stale.state = loadedDisk ∧
      history.writeFault 12 = none ∧ ∃ left, (lanes.remove history 100 12).result = .ok left := by
  intro lanes history refused accepted stale
  have used : lanes.UsedOn history := by
    refine ⟨0, 3, (Relation.ReflTransGen.single ?_).tail (.insert (Lanes.empty 0 3) _ 100 10 _)⟩
    exact .call _ (.write .empty (.resolve none ["disk"]))
  have failed : refused.result = .error (.timeBeforeLatest 5 10) := by decide
  have done : accepted.result = .ok 1 := by decide
  have kept : stale.result = .error (.timeBeforeLatest 5 10) := by decide
  have ready : history.writeFault 12 = none := by decide
  obtain ⟨unchanged, _, _, _⟩ := Lanes.all_or_nothing used 200 5 [("status", .long 2)]
  obtain ⟨_, held, _, _⟩ :=
    Lanes.all_or_nothing used 300 12 [("status", .long 2), ("status", .long 3)]
  obtain ⟨_, _, nothing, _⟩ := Lanes.all_or_nothing used 100 5 []
  obtain ⟨_, _, _, timely⟩ := Lanes.all_or_nothing used 100 12 []
  have ahead := (unchanged _ failed).2.2 [.insert history 300 12 []]
  refine ⟨failed, ahead.trans ?_, done, held 1 done "status" (.long 3) ?_, kept, nothing _ kept,
    ready, (timely ready).1⟩
  · decide
  · decide

end Chronicle
