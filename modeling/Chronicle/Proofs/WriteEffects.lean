import Chronicle.Proofs.Tiling
import Chronicle.Proofs.TreePaths
import Chronicle.Proofs.Writes

/-!
The effect of one write on a tiled history: it is refused for one of a few reasons and changes
nothing, or it is accepted and has one known effect. No write stops midway.
-/

namespace Chronicle

def History.closedFault (history : History) : Option HistoryError :=
  if history.closed then some .closedHistory else none

def History.orderFault (history : History) (time : Time) : Option HistoryError :=
  history.latestTime.bind fun latest =>
    if time < latest then some (.timeBeforeLatest time latest) else none

def History.quarkFault (history : History) (quark : Quark) : Option HistoryError :=
  if history.tree.contains quark then none else some (.unknownQuark quark)

def History.idleFault (history : History) (quark : Quark) : Option HistoryError :=
  if (history.store.ongoingOf quark).isSome then none else some (.notOngoing quark)

/-- The first of these faults is the reason for which a history refuses a write. -/
def Write.fault (history : History) : Write → Option HistoryError
  | .resolve parent path =>
      if (history.tree.find parent path).isSome then none
      else history.closedFault.or (history.tree.pathFault parent path)
  | .modify time quark _ =>
      (history.closedFault.or (history.orderFault time)).or (history.quarkFault quark)
  | .amend quark _ => history.closedFault.or (history.idleFault quark)
  | .amendAt time quark _ =>
      (history.closedFault.or (history.orderFault time)).or (history.idleFault quark)
  | .close stop => history.closedFault.or (history.orderFault stop)

/-- The quark is ongoing as before but under another value. -/
def Store.revalued (store : Store) (quark : Quark) (value : Value) : Store :=
  match store.ongoingOf quark with
  | some ongoing => store.amended quark { ongoing with value := value }
  | none => store

/-- The history that an accepted write leaves. -/
def History.written (history : History) : Write → History
  | .resolve parent path => (history.resolve parent path).state
  | .modify time quark value =>
      (history.withStore (history.store.recorded quark time value)).advance time
  | .amend quark value => history.withStore (history.store.revalued quark value)
  | .amendAt time quark value =>
      (history.withStore (history.store.revalued quark value)).advance time
  | .close stop =>
      { (history.withStore (history.store.sealed stop)).advance stop with closed := true }

/-- A sound history has a linked tree and is tiled. -/
structure History.Sound (history : History) : Prop where
  linked : history.tree.Linked
  tiled : history.Tiled

variable {history : History}

theorem History.writeFault_eq (history : History) (time : Time) :
    history.writeFault time = history.closedFault.or (history.orderFault time) := by
  unfold History.writeFault History.closedFault History.orderFault
  cases history.closed <;> cases history.latestTime <;> rfl

theorem History.closed_of_closedFault (granted : history.closedFault = none) :
    history.closed = false := by
  simpa [History.closedFault] using granted

/-- The order of time allows what is not before the latest time. -/
theorem History.orderFault_eq_none_iff {time : Time} : history.orderFault time = none ↔
    ∀ latest, history.latestTime = some latest → latest ≤ time := by
  simp [History.orderFault]

theorem History.le_of_orderFault {time latest : Time} (granted : history.orderFault time = none)
    (present : history.latestTime = some latest) : latest ≤ time :=
  History.orderFault_eq_none_iff.mp granted latest present

/-- The span of a tiled history extends to a time that the order allows. -/
theorem History.Tiled.bounded (tiled : history.Tiled) {time : Time}
    (granted : history.orderFault time = none) :
    history.startTime.getD time ≤ time ∧ ∀ quark, Bounded (history.startTime.getD time) time
      (history.store.intervalsOf quark) (history.store.ongoingOf quark) := by
  rcases tiled.span with ⟨start, _, blank⟩ | ⟨first, latest, start, present, within, bounded⟩
  · rw [start]
    refine ⟨Nat.le_refl _, fun quark => ?_⟩
    rw [(blank quark).1, (blank quark).2]
    exact Bounded.empty _ _
  · have after := History.le_of_orderFault granted present
    rw [start]
    exact ⟨Nat.le_trans within after, fun quark => (bounded quark).later after⟩

/-- In a running tiled history every quark is current at a time that the order allows. -/
theorem History.Tiled.current (tiled : history.Tiled) {time : Time}
    (running : history.closed = false) (granted : history.orderFault time = none) (quark : Quark) :
    history.store.Current quark time where
  idle := by
    intro idle last final
    rw [tiled.running running quark idle] at final
    cases final
  started := by
    intro ongoing held
    exact (((tiled.bounded granted).2 quark).begun ongoing held).2
  committed := by
    intro ongoing held last final
    have follows := (tiled.tiling quark).continued ongoing last held final
    lia

/-- A running history resolves every path that names something. -/
theorem Write.resolve_fault (running : history.closed = false) (names : List String) :
    (Write.resolve none names).fault history =
      if names = [] then some (.unknownPath "") else none := by
  have open? : history.closedFault = none := by simp [History.closedFault, running]
  cases names with
  | nil => simp [Write.fault, Tree.find, Tree.walk, Tree.pathFault, open?]
  | cons name rest => simp [Write.fault, Tree.pathFault, open?]

/-- Resolving a path on a sound history is refused for its fault, or only lets the tree grow. -/
theorem History.Sound.resolve_cases (sound : history.Sound) (parent : Option Quark)
    (path : List String) :
    (∃ error, (Write.resolve parent path).fault history = some error ∧
      history.resolve parent path = .fail error history) ∨
    ((Write.resolve parent path).fault history = none ∧ ∃ quark grown,
      history.resolve parent path = .done quark (history.withTree grown) ∧ grown.Linked ∧
        history.tree.Grows grown ∧ grown.walk parent path = some quark) := by
  simp only [Write.fault, History.resolve, History.closedFault]
  cases found : history.tree.find parent path with
  | some quark =>
      refine Or.inr ⟨rfl, quark, history.tree, rfl, sound.linked, Tree.Grows.refl _, ?_⟩
      cases parent with
      | none => exact found
      | some place => by_cases inside : history.tree.contains place <;> simp_all [Tree.find]
  | none =>
      cases closed : history.closed with
      | true => exact Or.inl ⟨.closedHistory, rfl, rfl⟩
      | false =>
          rcases sound.linked.resolve_cases parent path with
            ⟨error, fault, failed⟩ | ⟨fault, quark, grown, done, after, grows, reached⟩
          · exact Or.inl ⟨error, fault, by rw [failed]; rfl⟩
          · exact Or.inr ⟨fault, quark, grown, by rw [done]; rfl, after, grows, reached⟩

theorem History.amend_store (history : History) (quark : Quark) (value : Value) :
    history.store.amend quark value =
      match history.store.ongoingOf quark with
      | some ongoing => .done ongoing.value (history.store.revalued quark value)
      | none => .fail (.notOngoing quark) history.store := by
  cases held : history.store.ongoingOf quark with
  | some ongoing => simp only [Store.amend_done held, Store.revalued, held]
  | none => exact Store.amend_fail held value

/-- A write on a sound history is refused for its fault and changes nothing, or it is accepted and
has its full effect. -/
theorem History.Sound.write_eq (sound : history.Sound) (write : Write) :
    history.write write =
      match write.fault history with
      | some error => .fail error history
      | none => .done () (history.written write) := by
  cases write with
  | resolve parent path =>
      rcases sound.resolve_cases parent path with
        ⟨error, fault, failed⟩ | ⟨fault, quark, grown, done, _⟩
      · simp only [History.write, fault, failed]
        rfl
      · simp only [History.write, History.written, fault, done]
        rfl
  | modify time quark value =>
      simp only [History.write, History.modify, Write.fault, History.writeFault_eq]
      cases order : history.closedFault.or (history.orderFault time) with
      | some error => rfl
      | none =>
          obtain ⟨running, granted⟩ := Option.or_eq_none_iff.mp order
          by_cases inside : history.tree.contains quark = true
          · rw [Store.record_done sound.tiled.level
              (sound.tiled.current (History.closed_of_closedFault running) granted quark) value]
            simp [History.quarkFault, inside, History.written, Attempt.done, Attempt.within,
              Attempt.andThen]
          · simp [History.quarkFault, inside]
  | amend quark value =>
      simp only [History.write, History.amend, Write.fault, History.closedFault]
      cases closed : history.closed with
      | true => rfl
      | false =>
          rw [history.amend_store]
          cases held : history.store.ongoingOf quark with
          | some ongoing => simp [History.idleFault, held, History.written, Attempt.done,
              Attempt.within, Attempt.andThen]
          | none => simp [History.idleFault, held, Attempt.fail, Attempt.within, Attempt.andThen,
              History.withStore]
  | amendAt time quark value =>
      simp only [History.write, History.amendAt, Write.fault, History.writeFault_eq]
      cases order : history.closedFault.or (history.orderFault time) with
      | some error => rfl
      | none =>
          simp only
          rw [history.amend_store]
          cases held : history.store.ongoingOf quark with
          | some ongoing => simp [History.idleFault, held, History.written, Attempt.done,
              Attempt.within, Attempt.andThen]
          | none => simp [History.idleFault, held, Attempt.fail, Attempt.within, Attempt.andThen,
              History.withStore]
  | close stop =>
      simp only [History.write, History.close, Write.fault, History.writeFault_eq]
      cases order : history.closedFault.or (history.orderFault stop) with
      | some error => rfl
      | none =>
          obtain ⟨running, granted⟩ := Option.or_eq_none_iff.mp order
          rw [Store.closeAll_sealed sound.tiled.level
            (sound.tiled.current (History.closed_of_closedFault running) granted)]
          rfl

end Chronicle
