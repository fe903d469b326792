import Chronicle.History.Query
import Chronicle.Proofs.ClosedHistories
import Chronicle.Proofs.TileValues

/-!
The recorded past never changes: closed intervals stay where they are, an ongoing interval keeps its
start until it is the next closed one, and values before that start stay the same.
-/

namespace Chronicle

/-- A later store extends a quark when it keeps the closed intervals and the start of the ongoing one,
or has closed that one after them. -/
structure Store.Extends (store later : Store) (quark : Quark) : Prop where
  closed : store.intervalsOf quark <+: later.intervalsOf quark
  begun : ∀ ongoing, store.ongoingOf quark = some ongoing →
    (later.intervalsOf quark = store.intervalsOf quark ∧
      (later.ongoingOf quark).map Ongoing.start = some ongoing.start) ∨
    ∃ interval rest, later.intervalsOf quark = store.intervalsOf quark ++ interval :: rest ∧
      interval.start = ongoing.start

section Extends

variable {store middle later : Store} {quark : Quark}

/-- A quark whose intervals stay and whose ongoing interval keeps its start is extended. -/
theorem Store.extends_of_kept (intervals : later.intervalsOf quark = store.intervalsOf quark)
    (starts : (later.ongoingOf quark).map Ongoing.start =
      (store.ongoingOf quark).map Ongoing.start) : store.Extends later quark where
  closed := intervals ▸ List.prefix_refl _
  begun ongoing held := Or.inl ⟨intervals, by rw [starts, held, Option.map_some]⟩

theorem Store.Extends.trans (first : store.Extends middle quark)
    (second : middle.Extends later quark) : store.Extends later quark where
  closed := first.closed.trans second.closed
  begun ongoing held := by
    rcases first.begun ongoing held with ⟨intervals, starts⟩ | ⟨interval, rest, intervals, start⟩
    · obtain ⟨next, current, same⟩ := Option.map_eq_some_iff.mp starts
      have continued := second.begun next current
      rwa [intervals, same] at continued
    · obtain ⟨more, appended⟩ := second.closed
      refine Or.inr ⟨interval, rest ++ more, ?_, start⟩
      rw [← appended, intervals, List.append_assoc, List.cons_append]

end Extends

section Step

variable {history : History} {quark : Quark}

/-- Recording a value closes the ongoing interval or starts it anew at the same time. -/
theorem Store.extends_recorded {store : Store} (level : store.Level) (quark : Quark) (time : Time)
    (value : Value) : store.Extends (store.recorded quark time value) quark := by
  have row : (store.recorded quark time value).intervalsOf quark = _ :=
    (Store.intervalsOf_recorded level quark).trans (if_pos rfl)
  have state : (store.recorded quark time value).ongoingOf quark = _ :=
    (Store.ongoingOf_recorded level quark).trans (if_pos rfl)
  refine ⟨⟨_, row.symm⟩, fun ongoing held => ?_⟩
  rw [row, state, Store.cut, held]
  by_cases same : ongoing.start = time
  · refine Or.inl ⟨?_, by rw [same, Option.map_some]⟩
    simp only [same, if_true, Option.toList_none, List.append_nil]
  · refine Or.inr ⟨ongoing.close quark (time - 1), [], ?_, rfl⟩
    simp only [same, if_false, Option.toList_some]

theorem Store.extends_revalued (store : Store) (target quark : Quark) (value : Value) :
    store.Extends (store.revalued target value) quark := by
  apply Store.extends_of_kept (Store.intervalsOf_revalued quark)
  rw [Store.ongoingOf_revalued]
  by_cases same : quark = target
  · rw [if_pos same, same, Option.map_map]
    rfl
  · rw [if_neg same]

theorem Store.extends_sealed {store : Store} (level : store.Level) (quark : Quark) (stop : Time) :
    store.Extends (store.sealed stop) quark := by
  have row : (store.sealed stop).intervalsOf quark = _ := Store.intervalsOf_sealed level quark
  rw [Store.timeline] at row
  refine ⟨⟨_, row.symm⟩, fun ongoing held => Or.inr ⟨ongoing.close quark stop, [], ?_, rfl⟩⟩
  rw [row, held, Option.map_some, Option.toList_some]

/-- A write, accepted or refused, extends every quark. -/
theorem History.Sound.extends_write (sound : history.Sound) (write : Write) (quark : Quark) :
    history.store.Extends (history.write write).state.store quark := by
  rw [sound.write_eq write]
  cases granted : write.fault history with
  | some error => exact Store.extends_of_kept rfl rfl
  | none =>
      simp only [Attempt.state_done]
      cases concerned : write.concerns quark with
      | false =>
          obtain ⟨row, state, _⟩ := sound.written_frame granted concerned
          exact Store.extends_of_kept row (by rw [state])
      | true =>
          cases write with
          | resolve parent path => cases concerned
          | modify time target value =>
              obtain rfl : target = quark := of_decide_eq_true concerned
              exact Store.extends_recorded sound.tiled.level target time value
          | amend target value => exact history.store.extends_revalued target quark value
          | amendAt time target value => exact history.store.extends_revalued target quark value
          | close stop => exact Store.extends_sealed sound.tiled.level quark stop

theorem History.Sound.grows_write (sound : history.Sound) (write : Write) :
    history.tree.Grows (history.write write).state.tree := by
  rw [sound.write_eq write]
  cases granted : write.fault history with
  | some error => exact Tree.Grows.refl _
  | none => exact sound.grows_written granted

end Step

/-- Intervals that start after a time do not count for it. -/
theorem scanned_append_of_lt {row tail : List Interval} {time : Time}
    (later : ∀ interval ∈ tail, time < interval.start) :
    scanned (row ++ tail) time = scanned row time := by
  have missing : tail.find? (fun interval => interval.contains time) = none := by
    apply List.find?_eq_none.mpr
    intro interval member
    have start := later interval member
    simp [Interval.contains]
    lia
  rw [scanned, List.find?_append, missing, Option.or_none, scanned]

section Run

variable {history later : History}

/-- A continuation of a sound history extends every quark. -/
theorem History.Continues.extends (path : history.Continues later) (sound : history.Sound)
    (quark : Quark) : history.store.Extends later.store quark := by
  let Kept (state : History) : Prop := state.Sound ∧ history.store.Extends state.store quark
  have step (before : History) (write : Write) (kept : Kept before) :
      Kept (before.write write).state :=
    ⟨kept.1.write write, kept.2.trans (kept.1.extends_write write quark)⟩
  exact (path.keeps step ⟨sound, Store.extends_of_kept rfl rfl⟩).2

theorem History.Continues.grows (path : history.Continues later) (sound : history.Sound) :
    history.tree.Grows later.tree := by
  let Kept (state : History) : Prop := state.Sound ∧ history.tree.Grows state.tree
  have step (before : History) (write : Write) (kept : Kept before) :
      Kept (before.write write).state :=
    ⟨kept.1.write write, kept.2.trans (kept.1.grows_write write)⟩
  exact (path.keeps step ⟨sound, Tree.Grows.refl _⟩).2

/-- The ongoing interval of a quark starts no later than one that follows. -/
theorem Store.Extends.start_le {store after : Store} {quark : Quark}
    (continues : store.Extends after quark)
    (tiling : Tiling quark (after.intervalsOf quark) (after.ongoingOf quark))
    {ongoing next : Ongoing} (held : store.ongoingOf quark = some ongoing)
    (current : after.ongoingOf quark = some next) : ongoing.start ≤ next.start := by
  rw [current] at tiling
  rcases continues.begun ongoing held with ⟨_, starts⟩ | ⟨interval, rest, intervals, start⟩
  · rw [current] at starts
    exact Nat.le_of_eq (Option.some.inj starts).symm
  · have member : interval ∈ after.intervalsOf quark := by simp [intervals]
    have before := tiling.stop_lt interval member
    have ordered := tiling.ordered interval member
    lia

/-- Values before the start of the ongoing interval stay the same. -/
theorem Store.Extends.valueAt_eq {store after : Store} {quark : Quark}
    (continues : store.Extends after quark)
    (tiling : Tiling quark (store.intervalsOf quark) (store.ongoingOf quark))
    (later : Tiling quark (after.intervalsOf quark) (after.ongoingOf quark)) {ongoing : Ongoing}
    (held : store.ongoingOf quark = some ongoing) {time : Time} (past : time < ongoing.start) :
    after.valueAt quark time = store.valueAt quark time := by
  -- neither ongoing interval reaches back to the time
  have scan : after.valueAt quark time = scanned (after.intervalsOf quark) time := by
    rw [after.valueAt_eq later.ascends]
    cases current : after.ongoingOf quark with
    | none => rfl
    | some next =>
        have order := continues.start_le later held current
        simp only
        rw [if_neg (by lia)]
  rw [scan, store.valueAt_eq tiling.ascends, held]
  simp only
  rw [if_neg (by lia)]
  rcases continues.begun ongoing held with ⟨intervals, _⟩ | ⟨interval, rest, intervals, start⟩
  · rw [intervals]
  · have ascends := later.ascends
    rw [intervals] at ascends ⊢
    apply scanned_append_of_lt
    intro other member
    have apart := (List.pairwise_append.mp ascends.apart).2.1
    have ordered := ascends.ordered interval (by simp)
    rcases List.mem_cons.mp member with same | behind
    · rw [same]
      lia
    · have order := (List.pairwise_cons.mp apart).1 other behind
      lia

/-- Whatever is called on a reachable history: the closed intervals of every quark stay the first ones,
values before the start of an ongoing interval stay the same, and all values once the history is
closed; an ongoing interval keeps its start until it is the next closed interval, and those that
follow start later; and every attribute keeps its name, its parent, its segments and its path. -/
theorem History.past_immutable (reachable : history.Reachable)
    (path : history.Continues later) :
    (∀ quark, history.store.intervalsOf quark <+: later.store.intervalsOf quark) ∧
    (∀ quark time, (history.closed = true ∨
      ∃ ongoing, history.store.ongoingOf quark = some ongoing ∧ time < ongoing.start) →
        later.valueAt quark time = history.valueAt quark time) ∧
    (∀ quark ongoing, history.store.ongoingOf quark = some ongoing →
      (∀ next, later.store.ongoingOf quark = some next → ongoing.start ≤ next.start) ∧
      ((later.store.intervalsOf quark = history.store.intervalsOf quark ∧
          (later.store.ongoingOf quark).map Ongoing.start = some ongoing.start) ∨
        ∃ interval rest, interval.start = ongoing.start ∧
          later.store.intervalsOf quark =
            history.store.intervalsOf quark ++ interval :: rest)) ∧
    ∀ quark, history.tree.contains quark = true →
      later.tree.contains quark = true ∧
      later.tree.nameOf quark = history.tree.nameOf quark ∧
      later.tree.parentOf quark = history.tree.parentOf quark ∧
      later.tree.segmentsOf quark = history.tree.segmentsOf quark ∧
      ∀ names, later.tree.find none names = some quark ↔
        history.tree.find none names = some quark := by
  have sound := reachable.sound
  have after := path.sound sound
  have grows := path.grows sound
  have continues := path.extends sound
  refine ⟨fun quark => (continues quark).closed, ?_, ?_, ?_⟩
  · intro quark time past
    rcases past with closed | ⟨ongoing, held, past⟩
    · rw [path.eq_of_closed closed]
    · have inside := sound.tiled.issued quark (Or.inr (by rw [held]; rfl))
      have kept := (continues quark).valueAt_eq (sound.tiled.tiling quark)
        (after.tiled.tiling quark) held past
      rw [History.valueAt, if_pos (grows.contains inside), History.valueAt, if_pos inside, kept]
  · intro quark ongoing held
    refine ⟨fun next current =>
      (continues quark).start_le (after.tiled.tiling quark) held current, ?_⟩
    refine ((continues quark).begun ongoing held).imp_right ?_
    intro ⟨interval, rest, intervals, start⟩
    exact ⟨interval, rest, start, intervals⟩
  · intro quark inside
    obtain ⟨label, found⟩ := Tree.contains_iff.mp inside
    have kept := (grows quark label found).trans found.symm
    have name (tree : Tree) : tree.nameOf quark = (tree.label quark).map Prod.snd := by
      simp [Tree.nameOf, Tree.label, Function.comp_def]
    have parent (tree : Tree) : tree.parentOf quark = (tree.label quark).bind Prod.fst := by
      rw [Tree.parentOf, Tree.label, Option.bind_map]
      rfl
    exact ⟨grows.contains inside, by rw [name, name, kept], by rw [parent, parent, kept],
      grows.segmentsOf sound.linked after.linked inside,
      fun names => grows.find_iff sound.linked after.linked inside⟩

end Run

/-- The status of the disk changes at 5, and later on to an amended value, in vain, and to none. -/
def busyWrites : List Write := openedWrites ++ [.modify 5 1 (.text "busy")]

def calmingWrites : List Write :=
  [.amendAt 6 1 (.text "calm"), .modify 4 1 (.text "late"), .modify 7 1 .null,
    .resolve none ["disk", "load"]]

/-- The later writes leave the value at 4 alone, and the interval that was ongoing since 5 is the next
closed one. -/
theorem History.past_immutable_of_disk :
    let history := History.empty.writeAll busyWrites
    let later := history.writeAll calmingWrites
    history.Reachable ∧ history.Continues later ∧
      history.store.ongoingOf 1 = some ⟨5, .text "busy"⟩ ∧
      history.store.intervalsOf 1 <+: later.store.intervalsOf 1 ∧
      later.valueAt 1 4 = .ok (.text "idle") ∧
      ∃ interval rest, interval.start = 5 ∧
        later.store.intervalsOf 1 = history.store.intervalsOf 1 ++ interval :: rest := by
  intro history later
  have reachable : history.Reachable := History.reachable_writeAll busyWrites
  have path : history.Continues later := History.continues_iff.mpr ⟨calmingWrites, rfl⟩
  obtain ⟨closed, values, begun, _⟩ := History.past_immutable reachable path
  have held : history.store.ongoingOf 1 = some ⟨5, .text "busy"⟩ := by decide
  have past : later.valueAt 1 4 = history.valueAt 1 4 :=
    values 1 4 (Or.inr ⟨_, held, by decide⟩)
  have moved : ¬ (later.store.ongoingOf 1).map Ongoing.start = some 5 := by decide
  exact ⟨reachable, path, held, closed 1, past.trans (by decide),
    (begun 1 _ held).2.resolve_left fun kept => moved kept.2⟩

end Chronicle
