import Chronicle.Proofs.WriteEffects

/-!
Every reachable history is sound: each accepted write keeps the tiling of all quarks, the span of
accepted times and the agreement of the tables.
-/

namespace Chronicle

variable {history : History}

theorem History.sound_empty : History.empty.Sound where
  linked := Tree.linked_empty
  tiled :=
    { tiling := Tiling.empty
      span := Or.inl ⟨rfl, rfl, fun _ => ⟨rfl, rfl⟩⟩
      issued := by
        rintro quark (present | present)
        · exact absurd rfl present
        · cases present
      level := rfl
      counted := rfl
      frozen := by simp [History.empty]
      running := fun _ _ _ => rfl }

/-- A growing tree keeps all that is known about the intervals. -/
theorem History.Sound.withTree (sound : history.Sound) {grown : Tree} (linked : grown.Linked)
    (grows : history.tree.Grows grown) : (history.withTree grown).Sound where
  linked := linked
  tiled :=
    { tiling := sound.tiled.tiling
      span := sound.tiled.span
      issued := fun quark present => grows.contains (sound.tiled.issued quark present)
      level := sound.tiled.level
      counted := sound.tiled.counted
      frozen := sound.tiled.frozen
      running := sound.tiled.running }

/-- What is cut off a current quark is its last tile. -/
theorem Store.tiling_recorded {store : Store} {quark : Quark} {time : Time}
    (tiling : Tiling quark (store.intervalsOf quark) (store.ongoingOf quark))
    (current : store.Current quark time)
    (blank : store.ongoingOf quark = none → store.intervalsOf quark = []) (value : Value) :
    Tiling quark (store.intervalsOf quark ++ (store.cut quark time).toList)
      (some ⟨time, value⟩) := by
  unfold Store.cut
  cases held : store.ongoingOf quark with
  | none =>
      rw [blank held]
      exact Tiling.begin quark ⟨time, value⟩
  | some ongoing =>
      rw [held] at tiling
      by_cases same : ongoing.start = time
      · simpa [same] using tiling.amend value
      · have started := current.started ongoing held
        have next : time - 1 + 1 = time := by lia
        simp only [same, if_false, Option.toList_some]
        rw [← next]
        exact tiling.cut (by lia) value

theorem Store.bounded_recorded {store : Store} {quark : Quark} {first time : Time}
    (bounded : Bounded first time (store.intervalsOf quark) (store.ongoingOf quark))
    (within : first ≤ time) (value : Value) :
    Bounded first time (store.intervalsOf quark ++ (store.cut quark time).toList)
      (some ⟨time, value⟩) := by
  unfold Store.cut
  cases held : store.ongoingOf quark with
  | none => simpa using bounded.begin within value
  | some ongoing =>
      by_cases same : ongoing.start = time
      · simpa [same] using bounded.begin within value
      · rw [held] at bounded
        simp only [same, if_false]
        exact (bounded.stopped (Nat.sub_le time 1)).begin within value

/-- An accepted modification keeps a history tiled. -/
theorem History.Sound.modified (sound : history.Sound) {time : Time} {quark : Quark} {value : Value}
    (granted : (Write.modify time quark value).fault history = none) :
    (history.written (.modify time quark value)).Sound := by
  simp only [Write.fault, Option.or_eq_none_iff] at granted
  obtain ⟨⟨open?, order⟩, inside⟩ := granted
  have running := History.closed_of_closedFault open?
  have current := sound.tiled.current running order quark
  obtain ⟨within, bounded⟩ := sound.tiled.bounded order
  have level := sound.tiled.level
  have row (other : Quark) : (history.store.recorded quark time value).intervalsOf other = _ :=
    Store.intervalsOf_recorded level other
  have state (other : Quark) : (history.store.recorded quark time value).ongoingOf other = _ :=
    Store.ongoingOf_recorded level other
  refine ⟨sound.linked, ?_⟩
  constructor
  case tiling =>
    intro other
    simp only [History.written, History.advance, History.withStore, row, state]
    by_cases same : other = quark
    · subst other
      simp only [if_true]
      exact Store.tiling_recorded (sound.tiled.tiling quark) current
        (sound.tiled.running running quark) value
    · simpa only [same, if_false] using sound.tiled.tiling other
  case span =>
    refine Or.inr ⟨_, time, rfl, rfl, within, fun other => ?_⟩
    simp only [History.written, History.advance, History.withStore, row, state]
    by_cases same : other = quark
    · subst other
      simp only [if_true]
      exact Store.bounded_recorded (bounded quark) within value
    · simpa only [same, if_false] using bounded other
  case issued =>
    intro other
    simp only [History.written, History.advance, History.withStore, row, state]
    by_cases same : other = quark
    · subst other
      intro _
      simpa [History.quarkFault] using inside
    · simpa only [same, if_false] using sound.tiled.issued other
  case level => exact Store.level_recorded level
  case counted =>
    have counted := sound.tiled.counted
    simp only [History.written, History.advance, History.withStore, Store.closedCount_recorded,
      Store.length_allIntervals_recorded level, counted]
  case frozen =>
    intro closed
    simp [History.written, History.advance, History.withStore, running] at closed
  case running =>
    intro _ other
    simp only [History.written, History.advance, History.withStore, row, state]
    by_cases same : other = quark
    · simp [same]
    · simpa only [same, if_false] using sound.tiled.running running other

/-- A running history that moves on to a later time stays sound. -/
theorem History.Sound.advance (sound : history.Sound) {time : Time}
    (running : history.closed = false) (order : history.orderFault time = none) :
    (history.advance time).Sound where
  linked := sound.linked
  tiled :=
    { tiling := sound.tiled.tiling
      span := by
        obtain ⟨within, bounded⟩ := sound.tiled.bounded order
        exact Or.inr ⟨_, time, rfl, rfl, within, bounded⟩
      issued := sound.tiled.issued
      level := sound.tiled.level
      counted := sound.tiled.counted
      frozen := by
        intro closed
        simp [History.advance, running] at closed
      running := sound.tiled.running }

section Revalued

variable {store : Store} {quark : Quark} {value : Value}

@[simp] theorem Store.intervalsOf_revalued (other : Quark) :
    (store.revalued quark value).intervalsOf other = store.intervalsOf other := by
  unfold Store.revalued
  split <;> rfl

/-- Only the value of the ongoing interval changes. -/
theorem Store.ongoingOf_revalued (other : Quark) :
    (store.revalued quark value).ongoingOf other =
      if other = quark then
        (store.ongoingOf quark).map fun ongoing => { ongoing with value := value }
      else store.ongoingOf other := by
  unfold Store.revalued
  split
  · rename_i ongoing held
    rw [Store.ongoingOf_amended (store.ongoingOf_lt held), held]
    rfl
  · rename_i idle
    by_cases same : other = quark <;> simp [same, idle]

theorem Store.revalued_idle (idle : store.ongoingOf quark = none) (value : Value) :
    store.revalued quark value = store := by
  simp only [Store.revalued, idle]

theorem Store.closedCount_revalued :
    (store.revalued quark value).closedCount = store.closedCount := by
  unfold Store.revalued
  split <;> rfl

theorem Store.length_allOngoing_revalued :
    (store.revalued quark value).allOngoing.length = store.allOngoing.length := by
  apply Store.length_allOngoing_congr
  intro other
  rw [Store.ongoingOf_revalued]
  by_cases own : other = quark <;> simp [own]

end Revalued

/-- Another value for an ongoing interval keeps a running history sound. -/
theorem History.Sound.revalued (sound : history.Sound) (running : history.closed = false)
    (quark : Quark) (value : Value) :
    (history.withStore (history.store.revalued quark value)).Sound := by
  refine ⟨sound.linked, ?_⟩
  have state (other : Quark) : (history.store.revalued quark value).ongoingOf other = _ :=
    Store.ongoingOf_revalued other
  have ongoing (other : Quark) : (history.store.revalued quark value).ongoingOf other = none ↔
      history.store.ongoingOf other = none := by
    rw [state]
    by_cases same : other = quark <;> simp [same]
  constructor
  case tiling =>
    intro other
    have tiling := sound.tiled.tiling other
    simp only [History.withStore, Store.intervalsOf_revalued, state]
    by_cases same : other = quark
    · subst other
      simpa only [if_true] using tiling.amend value
    · simpa only [same, if_false] using tiling
  case span =>
    rcases sound.tiled.span with ⟨start, latest, blank⟩ | ⟨first, latest, start, present, within, bounded⟩
    · refine Or.inl ⟨start, latest, fun other => ?_⟩
      simp only [History.withStore, Store.intervalsOf_revalued, ongoing]
      exact blank other
    · refine Or.inr ⟨first, latest, start, present, within, fun other => ?_⟩
      have before := bounded other
      simp only [History.withStore, Store.intervalsOf_revalued, state]
      by_cases same : other = quark
      · subst other
        simpa only [if_true] using before.amend value
      · simpa only [same, if_false] using before
  case issued =>
    intro other present
    simp only [History.withStore, Store.intervalsOf_revalued, Option.isSome_iff_ne_none, ne_eq,
      ongoing] at present
    exact sound.tiled.issued other (by simpa [Option.isSome_iff_ne_none] using present)
  case level =>
    have level := sound.tiled.level
    simp only [History.withStore]
    unfold Store.revalued
    split
    · exact Store.level_amended level
    · exact level
  case counted =>
    have counted := sound.tiled.counted
    simp only [History.withStore]
    unfold Store.revalued
    split <;> exact counted
  case frozen =>
    intro closed
    simp [History.withStore, running] at closed
  case running =>
    intro _ other idle
    rw [History.withStore, ongoing] at idle
    simpa [History.withStore] using sound.tiled.running running other idle

/-- Closing all quarks at an allowed time keeps a history sound. -/
theorem History.Sound.sealed (sound : history.Sound) {stop : Time}
    (running : history.closed = false) (order : history.orderFault stop = none) :
    (history.written (.close stop)).Sound := by
  have level := sound.tiled.level
  obtain ⟨within, bounded⟩ := sound.tiled.bounded order
  have state (quark : Quark) : (history.store.sealed stop).ongoingOf quark = none :=
    Store.ongoingOf_sealed quark
  have row (quark : Quark) : (history.store.sealed stop).intervalsOf quark = _ :=
    Store.intervalsOf_sealed level quark
  refine ⟨sound.linked, ?_⟩
  constructor
  case tiling =>
    intro quark
    simp only [History.written, History.advance, History.withStore, row, state, Store.timeline]
    apply (sound.tiled.tiling quark).stopped
    intro ongoing held
    exact ((bounded quark).begun ongoing held).2
  case span =>
    refine Or.inr ⟨_, stop, rfl, rfl, within, fun quark => ?_⟩
    simp only [History.written, History.advance, History.withStore, row, state, Store.timeline]
    exact (bounded quark).stopped (Nat.le_refl stop)
  case issued =>
    intro quark present
    simp only [History.written, History.advance, History.withStore, row, state] at present
    apply sound.tiled.issued quark
    cases held : history.store.ongoingOf quark with
    | none => simpa [Store.timeline, held] using present
    | some ongoing => simp
  case level => exact Store.level_sealed level
  case counted =>
    have counted := sound.tiled.counted
    simp only [History.written, History.advance, History.withStore, Store.sealed,
      Store.closedCount_shutAll,
      Store.length_allIntervals_shutAll (history.store.allOngoing_inside level), counted]
  case frozen =>
    intro _ quark
    simp only [History.written, History.advance, History.withStore, row, state, Store.timeline]
    refine ⟨trivial, fun last final => ?_⟩
    cases held : history.store.ongoingOf quark with
    | none => simp [held, sound.tiled.running running quark held] at final
    | some ongoing =>
        simp only [held, Option.map_some, Option.toList_some, List.getLast?_append,
          List.getLast?_singleton, Option.some_or, Option.some.injEq] at final
        rw [← final, Ongoing.close]
  case running => simp [History.written]

/-- The write is about the intervals of the quark. Closing is about all quarks. -/
def Write.concerns (quark : Quark) : Write → Bool
  | .resolve _ _ => false
  | .modify _ target _ => target = quark
  | .amend target _ => target = quark
  | .amendAt _ target _ => target = quark
  | .close _ => true

/-- An accepted write about other quarks leaves the quark as it is, and the history open. -/
theorem History.Sound.written_frame (sound : history.Sound) {write : Write} {quark : Quark}
    (granted : write.fault history = none) (apart : write.concerns quark = false) :
    (history.written write).store.intervalsOf quark = history.store.intervalsOf quark ∧
      (history.written write).store.ongoingOf quark = history.store.ongoingOf quark ∧
      (history.written write).closed = history.closed := by
  have level := sound.tiled.level
  cases write with
  | resolve parent path =>
      rcases sound.resolve_cases parent path with
        ⟨error, fault, _⟩ | ⟨_, answer, grown, done, _⟩
      · rw [granted] at fault
        cases fault
      · rw [History.written, done]
        exact ⟨rfl, rfl, rfl⟩
  | modify time target value =>
      have other : quark ≠ target := by simpa [Write.concerns, eq_comm] using apart
      exact ⟨(Store.intervalsOf_recorded level quark).trans (if_neg other),
        (Store.ongoingOf_recorded level quark).trans (if_neg other), rfl⟩
  | amend target value =>
      have other : quark ≠ target := by simpa [Write.concerns, eq_comm] using apart
      exact ⟨Store.intervalsOf_revalued quark,
        (Store.ongoingOf_revalued quark).trans (if_neg other), rfl⟩
  | amendAt time target value =>
      have other : quark ≠ target := by simpa [Write.concerns, eq_comm] using apart
      exact ⟨Store.intervalsOf_revalued quark,
        (Store.ongoingOf_revalued quark).trans (if_neg other), rfl⟩
  | close stop => cases apart

/-- An accepted write keeps a history sound. -/
theorem History.Sound.written (sound : history.Sound) {write : Write}
    (granted : write.fault history = none) : (history.written write).Sound := by
  cases write with
  | resolve parent path =>
      rcases sound.resolve_cases parent path with
        ⟨error, fault, _⟩ | ⟨_, quark, grown, done, linked, grows, _⟩
      · rw [granted] at fault
        cases fault
      · rw [History.written, done]
        exact sound.withTree linked grows
  | modify time quark value => exact sound.modified granted
  | amend quark value =>
      simp only [Write.fault, Option.or_eq_none_iff] at granted
      exact sound.revalued (History.closed_of_closedFault granted.1) quark value
  | amendAt time quark value =>
      simp only [Write.fault, Option.or_eq_none_iff] at granted
      have running := History.closed_of_closedFault granted.1.1
      exact (sound.revalued running quark value).advance running granted.1.2
  | close stop =>
      simp only [Write.fault, Option.or_eq_none_iff] at granted
      exact sound.sealed (History.closed_of_closedFault granted.1) granted.2

/-- An accepted write lets the tree grow. -/
theorem History.Sound.grows_written (sound : history.Sound) {write : Write}
    (granted : write.fault history = none) : history.tree.Grows (history.written write).tree := by
  cases write with
  | resolve place path =>
      rcases sound.resolve_cases place path with
        ⟨error, fault, _⟩ | ⟨_, quark, grown, done, _, grows, _⟩
      · rw [granted] at fault
        cases fault
      · rw [History.written, done]
        exact grows
  | modify time quark value => exact Tree.Grows.refl _
  | amend quark value => exact Tree.Grows.refl _
  | amendAt time quark value => exact Tree.Grows.refl _
  | close stop => exact Tree.Grows.refl _

/-- One write, accepted or refused, leads from a sound history to a sound history. -/
theorem History.Sound.write (sound : history.Sound) (write : Write) :
    (history.write write).state.Sound := by
  rw [sound.write_eq write]
  cases granted : write.fault history with
  | some error => exact sound
  | none => exact sound.written granted

/-- Every continuation of a sound history is sound. -/
theorem History.Continues.sound {next : History} (path : history.Continues next)
    (sound : history.Sound) : next.Sound :=
  path.keeps (fun _ write before => before.write write) sound

theorem History.Leads.sound {next : History} (leads : history.Leads next) (sound : history.Sound) :
    next.Sound :=
  (History.continues_iff.mpr leads).sound sound

theorem History.Reachable.sound (reachable : history.Reachable) : history.Sound :=
  History.Continues.sound reachable History.sound_empty

end Chronicle
