import Chronicle.History.Query
import Chronicle.Proofs.KnownPaths
import Chronicle.Proofs.LaneSlots
import Chronicle.Proofs.SoundHistories

/-!
What writing a payload and clearing attributes do to a sound history: they are refused as a whole,
and at most the tree grows, or every entry is written at the time.
-/

namespace Chronicle

variable {history : History} {time : Time}

/-- After stamping, every attribute of an entry holds the last value given for it from the time on,
and all other attributes are as before. -/
structure History.Stamped (before : History) (time : Time) (entries : List (Quark × Value))
    (after : History) : Prop where
  sound : after.Sound
  grows : before.tree.Grows after.tree
  closed : after.closed = before.closed
  kept : ∀ quark, quark ∉ entries.map Prod.fst →
    after.store.intervalsOf quark = before.store.intervalsOf quark ∧
      after.store.ongoingOf quark = before.store.ongoingOf quark
  held : ∀ quark value, entries.reverse.lookup quark = some value →
    after.store.ongoingOf quark = some ⟨time, value⟩

/-- A history whose tree grows is stamped with nothing. -/
theorem History.Sound.stamped_withTree (sound : history.Sound) {grown : Tree}
    (linked : grown.Linked) (grows : history.tree.Grows grown) (time : Time) :
    history.Stamped time [] (history.withTree grown) where
  sound := sound.withTree linked grows
  grows := grows
  closed := rfl
  kept _ _ := ⟨rfl, rfl⟩
  held _ _ impossible := by cases impossible

theorem History.Sound.stamped_refl (sound : history.Sound) (time : Time) :
    history.Stamped time [] history :=
  sound.stamped_withTree sound.linked (Tree.Grows.refl _) time

/-- Later entries come last. -/
theorem History.Stamped.trans {before middle after : History}
    {former latter : List (Quark × Value)} (first : before.Stamped time former middle)
    (second : middle.Stamped time latter after) : before.Stamped time (former ++ latter) after where
  sound := second.sound
  grows := first.grows.trans second.grows
  closed := second.closed.trans first.closed
  kept quark absent := by
    rw [List.map_append, List.mem_append, not_or] at absent
    obtain ⟨rowFirst, stateFirst⟩ := first.kept quark absent.1
    obtain ⟨rowSecond, stateSecond⟩ := second.kept quark absent.2
    exact ⟨rowSecond.trans rowFirst, stateSecond.trans stateFirst⟩
  held quark value last := by
    rw [List.reverse_append, List.lookup_append] at last
    rcases Option.or_eq_some_iff.mp last with late | ⟨never, early⟩
    · exact second.held quark value late
    · have absent : quark ∉ latter.map Prod.fst := by
        have missing := not_mem_of_lookup_eq_none never
        rwa [List.map_reverse, List.mem_reverse] at missing
      rw [(second.kept quark absent).2, first.held quark value early]

/-- An attribute among the entries holds one of the values given for it. -/
theorem History.Stamped.ongoing {before after : History} {entries : List (Quark × Value)}
    (stamped : before.Stamped time entries after) {quark : Quark}
    (member : quark ∈ entries.map Prod.fst) :
    ∃ value, (quark, value) ∈ entries ∧ after.store.ongoingOf quark = some ⟨time, value⟩ := by
  rcases Option.eq_none_or_eq_some (entries.reverse.lookup quark) with never | ⟨value, last⟩
  · have absent := not_mem_of_lookup_eq_none never
    rw [List.map_reverse, List.mem_reverse] at absent
    exact absurd member absent
  · obtain ⟨later, earlier, split, _⟩ := List.lookup_eq_some_iff.mp last
    refine ⟨value, List.mem_reverse.mp ?_, stamped.held quark value last⟩
    rw [split]
    exact List.mem_append.mpr (Or.inr List.mem_cons_self)

/-- A cleared attribute holds no value from the time on. -/
theorem History.Stamped.cleared {before after : History} {quarks : List Quark}
    (stamped : before.Stamped time (quarks.map fun quark => (quark, .null)) after) {quark : Quark}
    (member : quark ∈ quarks) : after.store.ongoingOf quark = some ⟨time, .null⟩ := by
  have listed : quark ∈ (quarks.map fun quark => (quark, Value.null)).map Prod.fst := by
    simpa using member
  obtain ⟨value, among, held⟩ := stamped.ongoing listed
  obtain ⟨other, _, same⟩ := List.mem_map.mp among
  rw [Prod.mk.injEq] at same
  rw [held, ← same.2]

/-- A write in order to an attribute of the tree stamps it, and the time stays in order. -/
theorem History.Sound.modify_ready (sound : history.Sound) (ready : history.writeFault time = none)
    {quark : Quark} (inside : history.tree.contains quark = true) (value : Value) :
    ∃ after, history.modify time quark value = .done () after ∧
      history.Stamped time [(quark, value)] after ∧ after.writeFault time = none ∧
      after.tree = history.tree := by
  rw [History.writeFault_eq] at ready
  have granted : (Write.modify time quark value).fault history = none := by
    simp [Write.fault, ready, History.quarkFault, inside]
  have running := History.closed_of_closedFault (Option.or_eq_none_iff.mp ready).1
  have level := sound.tiled.level
  have done := sound.write_eq (.modify time quark value)
  rw [granted] at done
  refine ⟨history.written (.modify time quark value), done, ?_, ?_, rfl⟩
  · refine ⟨sound.written granted, Tree.Grows.refl _, rfl, fun other absent => ?_, ?_⟩
    · have apart : other ≠ quark := by simpa using absent
      exact ⟨(Store.intervalsOf_recorded level other).trans (if_neg apart),
        (Store.ongoingOf_recorded level other).trans (if_neg apart)⟩
    · intro other last found
      rw [List.reverse_singleton, lookup_cons_eq_if] at found
      split_ifs at found with same
      · obtain rfl := Option.some.inj found
        exact (Store.ongoingOf_recorded level other).trans (if_pos same)
      · cases found
  · simp [History.writeFault, History.written, History.withStore, History.advance, running]

/-- An ongoing interval says the value at its start. -/
theorem History.Sound.valueAt_ongoing (sound : history.Sound) {quark : Quark} {value : Value}
    (held : history.store.ongoingOf quark = some ⟨time, value⟩) :
    history.valueAt quark time = .ok value := by
  have inside := sound.tiled.issued quark (Or.inr (by rw [held]; rfl))
  simp [History.valueAt, inside, Store.valueAt, held]

theorem History.modify_refused {error : HistoryError} (fault : history.writeFault time = some error)
    (quark : Quark) (value : Value) : history.modify time quark value = .fail error history := by
  rw [History.modify, fault]

section Clear

/-- Clearing attributes of the tree in order stamps them all as absent. -/
theorem History.Sound.clear_ready (sound : history.Sound) (ready : history.writeFault time = none)
    {quarks : List Quark} (inside : ∀ quark ∈ quarks, history.tree.contains quark = true) :
    ∃ after, history.clear time quarks = .done () after ∧
      history.Stamped time (quarks.map fun quark => (quark, .null)) after := by
  induction quarks generalizing history with
  | nil => exact ⟨history, rfl, sound.stamped_refl time⟩
  | cons quark rest ih =>
      obtain ⟨middle, first, stamped, next, same⟩ :=
        sound.modify_ready ready (inside quark List.mem_cons_self) .null
      obtain ⟨after, second, others⟩ := ih stamped.sound next fun other member => by
        rw [same]
        exact inside other (List.mem_cons_of_mem _ member)
      refine ⟨after, ?_, stamped.trans others⟩
      rw [History.clear, first, Attempt.andThen_done, second]

/-- Clearing attributes of the tree is refused and changes nothing, or all are cleared. -/
theorem History.Sound.clear_cases (sound : history.Sound) (time : Time) {quarks : List Quark}
    (inside : ∀ quark ∈ quarks, history.tree.contains quark = true) :
    (∃ error, history.clear time quarks = .fail error history) ∨
    ∃ after, history.clear time quarks = .done () after ∧
      history.Stamped time (quarks.map fun quark => (quark, .null)) after := by
  cases fault : history.writeFault time with
  | none => exact Or.inr (sound.clear_ready fault inside)
  | some error =>
      cases quarks with
      | nil => exact Or.inr ⟨history, rfl, sound.stamped_refl time⟩
      | cons quark rest =>
          refine Or.inl ⟨error, ?_⟩
          rw [History.clear, History.modify_refused fault, Attempt.andThen_fail]

end Clear

section Payload

/-- The path of an entry below its slot; the empty name is the slot itself. -/
def entryPath (name : String) : List String := if name = "" then [] else [name]

/-- The entries are those of a payload, with the attributes that its names lead to. -/
def Tree.Names (tree : Tree) (slot : Quark) (payload : List (String × Value))
    (entries : List (Quark × Value)) : Prop :=
  List.Forall₂ (fun named entry =>
    tree.walk (some slot) (entryPath named.1) = some entry.1 ∧ named.2 = entry.2) payload entries

variable {writing : SlotWriting} {slot : Quark}

/-- Finding the attribute of an entry only lets the tree grow, and succeeds in an open history. -/
theorem SlotWriting.target_cases (sound : writing.history.Sound)
    (inside : writing.history.tree.contains slot = true) (name : String) :
    (writing.history.closed = true ∧ ∃ error, writing.target slot name = .fail error writing) ∨
    ∃ quark grown, writing.target slot name =
        .done quark { writing with history := writing.history.withTree grown } ∧
      grown.Linked ∧ writing.history.tree.Grows grown ∧
      grown.walk (some slot) (entryPath name) = some quark := by
  unfold SlotWriting.target entryPath
  by_cases empty : name = ""
  · rw [if_pos empty, if_pos empty]
    exact Or.inr ⟨slot, writing.history.tree, rfl, sound.linked, Tree.Grows.refl _, rfl⟩
  · rw [if_neg empty, if_neg empty]
    rcases sound.resolve_cases (some slot) [name] with
      ⟨error, fault, failed⟩ | ⟨_, quark, grown, done, linked, grows, reached⟩
    · refine Or.inl ⟨?_, error, by rw [failed]; rfl⟩
      by_contra running
      simp [Write.fault, History.closedFault, running, Tree.pathFault, inside] at fault
    · exact Or.inr ⟨quark, grown, by rw [done]; rfl, linked, grows, reached⟩

/-- A walk that starts at an attribute of the tree ends at one. -/
theorem Tree.Linked.contains_of_walk {tree : Tree} (linked : tree.Linked) {place quark : Quark}
    (inside : tree.contains place = true) {path : List String}
    (reached : tree.walk (some place) path = some quark) : tree.contains quark = true :=
  ((linked.walk_some_iff inside path quark).mp reached).1

/-- In order, all entries of a payload are written. -/
theorem SlotWriting.run_ready (sound : writing.history.Sound)
    (inside : writing.history.tree.contains slot = true)
    (ready : writing.history.writeFault time = none) (payload : List (String × Value)) :
    ∃ entries after,
      writing.run slot time payload = .done () ⟨after, writing.written ++ entries.map Prod.fst⟩ ∧
        writing.history.Stamped time entries after ∧ after.tree.Names slot payload entries := by
  induction payload generalizing writing with
  | nil =>
      exact ⟨[], writing.history, by simp [SlotWriting.run], sound.stamped_refl time,
        List.Forall₂.nil⟩
  | cons named rest ih =>
      obtain ⟨name, value⟩ := named
      rw [SlotWriting.run]
      rcases SlotWriting.target_cases sound inside name with
        ⟨closed, _⟩ | ⟨quark, grown, found, linked, grows, reached⟩
      · simp [History.writeFault, closed] at ready
      · have resolved := sound.stamped_withTree linked grows time
        have known := linked.contains_of_walk (grows.contains inside) reached
        obtain ⟨middle, first, stamped, next, same⟩ :=
          resolved.sound.modify_ready ready known value
        obtain ⟨entries, after, second, others, names⟩ :=
          @ih ⟨middle, writing.written ++ [quark]⟩ stamped.sound
            (by rw [same]; exact grows.contains inside) next
        refine ⟨(quark, value) :: entries, after, ?_, (resolved.trans stamped).trans others,
          List.Forall₂.cons ⟨?_, rfl⟩ names⟩
        · rw [found, Attempt.andThen_done, first]
          simpa [Attempt.within, Attempt.done, Attempt.andThen] using second
        · refine others.grows.walk stamped.sound.linked others.sound.linked ?_
          rw [same]
          exact reached

/-- Out of order, no entry of a payload is written. -/
theorem SlotWriting.run_refused (sound : writing.history.Sound)
    (inside : writing.history.tree.contains slot = true) {fault : HistoryError}
    (refused : writing.history.writeFault time = some fault) (named : String × Value)
    (rest : List (String × Value)) :
    ∃ error grown, writing.run slot time (named :: rest) =
        .fail error { writing with history := writing.history.withTree grown } ∧
      grown.Linked ∧ writing.history.tree.Grows grown := by
  obtain ⟨name, value⟩ := named
  rw [SlotWriting.run]
  rcases SlotWriting.target_cases sound inside name with
    ⟨_, error, failed⟩ | ⟨quark, grown, found, linked, grows, _⟩
  · refine ⟨error, writing.history.tree, ?_, sound.linked, Tree.Grows.refl _⟩
    rw [failed, Attempt.andThen_fail]
    rfl
  · refine ⟨fault, grown, ?_, linked, grows⟩
    have same : (writing.history.withTree grown).writeFault time = some fault := refused
    rw [found, Attempt.andThen_done, History.modify_refused same]
    rfl

/-- The attributes of the entries that are written to a slot, up to the first entry that is refused. -/
def History.marked (history : History) (slot : Quark) (time : Time) :
    List (String × Value) → List Quark
  | [] => []
  | (name, value) :: rest =>
      let found := if name = "" then .done slot history else history.resolve (some slot) [name]
      match found.result with
      | .error _ => []
      | .ok quark =>
          let changed := found.state.modify time quark value
          match changed.result with
          | .error _ => []
          | .ok () => quark :: changed.state.marked slot time rest

/-- What a writing notes is what was written. -/
theorem SlotWriting.written_run (writing : SlotWriting) (slot : Quark) (time : Time)
    (payload : List (String × Value)) :
    (writing.run slot time payload).state.written =
      writing.written ++ writing.history.marked slot time payload := by
  induction payload generalizing writing with
  | nil => simp [SlotWriting.run, History.marked]
  | cons named rest ih =>
      obtain ⟨name, value⟩ := named
      have target : writing.target slot name =
          (if name = "" then .done slot writing.history
            else writing.history.resolve (some slot) [name]).within fun history =>
              { writing with history := history } := by
        rw [SlotWriting.target]
        split_ifs <;> rfl
      rw [SlotWriting.run, target, History.marked, Attempt.state_andThen]
      generalize (if name = "" then Attempt.done slot writing.history
        else writing.history.resolve (some slot) [name]) = found
      simp only [Attempt.result_within]
      cases found.result with
      | error error => simp
      | ok quark =>
          simp only [Attempt.state_andThen, Attempt.result_within, Attempt.state_within]
          cases (found.state.modify time quark value).result with
          | error error => simp
          | ok answer => simp [ih]

variable {Key : Type} (lanes : Lanes Key)

/-- The attributes of a payload that are written to a slot with this number. -/
def Lanes.marked (history : History) (slot : Nat) (time : Time) (payload : List (String × Value)) :
    List Quark :=
  let resolved := history.resolve (some lanes.parent) [lanes.slotName slot]
  match resolved.result with
  | .error _ => []
  | .ok place => resolved.state.marked place time payload

theorem Lanes.written_writePayload (history : History) (slot : Nat) (time : Time)
    (payload : List (String × Value)) :
    (lanes.writePayload history slot time payload).state.written =
      lanes.marked history slot time payload := by
  rw [Lanes.writePayload, Lanes.marked, Attempt.state_andThen, Attempt.result_within]
  cases (history.resolve (some lanes.parent) [lanes.slotName slot]).result with
  | error error => rfl
  | ok place => simp [SlotWriting.written_run]

/-- A payload is written alike in all lanes at one place. -/
theorem Lanes.writePayload_congr {others : Lanes Key}
    (place : others.parent = lanes.parent ∧ others.slotName = lanes.slotName) :
    others.writePayload = lanes.writePayload := by
  obtain ⟨parent, slotName⟩ := place
  funext history slot time payload
  unfold Lanes.writePayload
  rw [parent, slotName]

/-- Writing a payload to a slot only lets the tree grow, or all its entries are written below the
slot. -/
theorem Lanes.writePayload_cases (sound : history.Sound) (slot : Nat) (time : Time)
    (payload : List (String × Value)) :
    (∃ error grown, lanes.writePayload history slot time payload =
        .fail error ⟨history.withTree grown, []⟩ ∧ grown.Linked ∧ history.tree.Grows grown) ∨
    ∃ place entries after, lanes.writePayload history slot time payload =
        .done () ⟨after, entries.map Prod.fst⟩ ∧ history.Stamped time entries after ∧
      after.tree.walk (some lanes.parent) [lanes.slotName slot] = some place ∧
      after.tree.Names place payload entries := by
  rw [Lanes.writePayload]
  rcases sound.resolve_cases (some lanes.parent) [lanes.slotName slot] with
    ⟨error, _, failed⟩ | ⟨_, place, grown, done, linked, grows, reached⟩
  · refine Or.inl ⟨error, history.tree, ?_, sound.linked, Tree.Grows.refl _⟩
    rw [failed]
    rfl
  · have resolved := sound.stamped_withTree linked grows time
    obtain ⟨_, known⟩ := linked.contains_of_step reached
    have start : ((history.resolve (some lanes.parent) [lanes.slotName slot]).within
        fun resolved => (⟨resolved, []⟩ : SlotWriting)) =
          .done place ⟨history.withTree grown, []⟩ := by
      rw [done]
      rfl
    rw [start, Attempt.andThen_done]
    cases fault : history.writeFault time with
    | none =>
        obtain ⟨entries, after, written, stamped, names⟩ :=
          @SlotWriting.run_ready time ⟨history.withTree grown, []⟩ place resolved.sound known fault
            payload
        exact Or.inr ⟨place, entries, after, written, resolved.trans stamped,
          stamped.grows.walk linked stamped.sound.linked reached, names⟩
    | some error =>
        cases payload with
        | nil => exact Or.inr ⟨place, [], _, rfl, resolved, reached, List.Forall₂.nil⟩
        | cons named rest =>
            obtain ⟨error, later, refused, after, more⟩ :=
              @SlotWriting.run_refused time ⟨history.withTree grown, []⟩ place resolved.sound known
                error fault named rest
            exact Or.inl ⟨error, later, refused, after, grows.trans more⟩

/-- In order, a payload is written to any slot below an attribute of the tree. -/
theorem Lanes.writePayload_ready (sound : history.Sound) (ready : history.writeFault time = none)
    (inside : history.tree.contains lanes.parent = true) (slot : Nat)
    (payload : List (String × Value)) :
    ∃ writing, lanes.writePayload history slot time payload = .done () writing := by
  rw [Lanes.writePayload]
  rcases sound.resolve_cases (some lanes.parent) [lanes.slotName slot] with
    ⟨error, fault, _⟩ | ⟨_, place, grown, done, linked, grows, reached⟩
  · rw [History.writeFault_eq] at ready
    have running := History.closed_of_closedFault (Option.or_eq_none_iff.mp ready).1
    simp [Write.fault, History.closedFault, running, Tree.pathFault, inside] at fault
  · have resolved := sound.stamped_withTree linked grows time
    obtain ⟨_, known⟩ := linked.contains_of_step reached
    obtain ⟨entries, after, written, _⟩ :=
      @SlotWriting.run_ready time ⟨history.withTree grown, []⟩ place resolved.sound known ready
        payload
    refine ⟨⟨after, entries.map Prod.fst⟩, ?_⟩
    rw [done]
    exact written

/-- What is written to a slot lies at the slot or below it. -/
theorem Tree.walk_of_names {tree : Tree} {parent place : Quark} {name : String}
    (reached : tree.walk (some parent) [name] = some place) {payload : List (String × Value)}
    {entries : List (Quark × Value)} (names : tree.Names place payload entries) :
    ∀ quark ∈ entries.map Prod.fst, ∃ rest, tree.walk (some parent) (name :: rest) = some quark := by
  induction names with
  | nil => simp
  | @cons named entry _ _ leads _ ih =>
      intro quark member
      rcases List.mem_cons.mp member with rfl | later
      · refine ⟨entryPath named.1, ?_⟩
        rw [← List.singleton_append, tree.walk_append (List.cons_ne_nil name []), reached]
        exact leads.1
      · exact ih quark later

end Payload

section Calls

variable {Key : Type} [DecidableEq Key] (lanes : Lanes Key)

/-- A key whose payload is written keeps its slot, and all that was written is noted for it. -/
theorem Lanes.insert_done {key : Key} {payload : List (String × Value)} {writing : SlotWriting}
    (done : lanes.writePayload history (lanes.assign key).2.slot time payload =
      .done () writing) :
    lanes.insert history key time payload = .done (lanes.assign key).2.slot
      ((lanes.assign key).1.put key ((lanes.assign key).2.note writing.written),
        writing.history) := by
  unfold Lanes.insert
  unfold Lanes.assign at *
  cases held : lanes.laneOf key with
  | some lane =>
      simp only [held] at done ⊢
      rw [done]
      rfl
  | none =>
      simp only [held] at done ⊢
      rw [lanes.writePayload_congr lanes.place_allocate, done]
      rfl

/-- A key whose payload is refused before anything was written is refused. -/
theorem Lanes.insert_fail {key : Key} {payload : List (String × Value)} {after : History}
    {error : HistoryError}
    (refused : lanes.writePayload history (lanes.assign key).2.slot time payload =
      .fail error ⟨after, []⟩) :
    lanes.insert history key time payload = .fail error (lanes.refuse key, after) := by
  unfold Lanes.insert Lanes.refuse
  unfold Lanes.assign at refused
  cases held : lanes.laneOf key with
  | some lane =>
      simp only [held] at refused ⊢
      rw [refused]
      rfl
  | none =>
      simp only [held] at refused ⊢
      rw [lanes.writePayload_congr lanes.place_allocate, refused]
      rfl

/-- Inserting a key is refused, and at most the tree grows, or its whole payload is written in the
slot of the key and noted. -/
theorem Lanes.insert_cases (sound : history.Sound) (key : Key) (time : Time)
    (payload : List (String × Value)) :
    (∃ error grown, lanes.insert history key time payload =
        .fail error (lanes.refuse key, history.withTree grown) ∧ grown.Linked ∧
      history.tree.Grows grown ∧
      lanes.marked history (lanes.assign key).2.slot time payload = []) ∨
    ∃ place entries after, lanes.insert history key time payload =
        .done (lanes.assign key).2.slot ((lanes.assign key).1.put key
          ((lanes.assign key).2.note (entries.map Prod.fst)), after) ∧
      history.Stamped time entries after ∧
      after.tree.walk (some lanes.parent) [lanes.slotName (lanes.assign key).2.slot] = some place ∧
      after.tree.Names place payload entries ∧
      lanes.marked history (lanes.assign key).2.slot time payload = entries.map Prod.fst := by
  have marked := lanes.written_writePayload history (lanes.assign key).2.slot time payload
  rcases lanes.writePayload_cases sound (lanes.assign key).2.slot time payload with
    ⟨error, grown, refused, linked, grows⟩ | ⟨place, entries, after, done, stamped, reached, names⟩
  · rw [refused] at marked
    exact Or.inl ⟨error, grown, lanes.insert_fail refused, linked, grows, marked.symm⟩
  · rw [done] at marked
    exact Or.inr ⟨place, entries, after, lanes.insert_done done, stamped, reached, names,
      marked.symm⟩

/-- Removing a key that is not live does nothing, and removing a live one is refused and changes
nothing, or all that is noted for it is cleared. -/
theorem Lanes.remove_cases (sound : history.Sound) (key : Key) (time : Time)
    (inside : ∀ lane, lanes.laneOf key = some lane →
      ∀ quark ∈ lane.written, history.tree.contains quark = true) :
    (lanes.laneOf key = none ∧ lanes.remove history key time = .done none (lanes, history)) ∨
    (∃ error, lanes.remove history key time = .fail error (lanes, history)) ∨
    ∃ lane after, lanes.laneOf key = some lane ∧
      lanes.remove history key time =
        .done (some lane.slot) ((lanes.drop key).release lane.slot, after) ∧
      history.Stamped time (lane.written.map fun quark => (quark, .null)) after := by
  unfold Lanes.remove
  cases held : lanes.laneOf key with
  | none => exact Or.inl ⟨rfl, rfl⟩
  | some lane =>
      refine Or.inr ?_
      rcases sound.clear_cases time (inside lane held) with
        ⟨error, refused⟩ | ⟨after, done, stamped⟩
      · refine Or.inl ⟨error, ?_⟩
        simp only [refused]
        rfl
      · refine Or.inr ⟨lane, after, rfl, ?_, stamped⟩
        simp only [done]
        rfl

end Calls

end Chronicle
