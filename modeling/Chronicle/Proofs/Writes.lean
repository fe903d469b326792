import Chronicle.Lanes
import Chronicle.Replay
import Mathlib.Logic.Relation

/-!
Writes as data, and the histories that calls of every kind can reach. Replaying events and using
lanes changes a history only through writes, so what every write keeps is kept by all calls.
-/

namespace Chronicle

/-- A write resolves a path, which may create attributes, or changes intervals. A path that is given
as a text resolves as its segments. -/
inductive Write where
  | resolve (parent : Option Quark) (path : List String)
  | modify (time : Time) (quark : Quark) (value : Value)
  | amend (quark : Quark) (value : Value)
  | amendAt (time : Time) (quark : Quark) (value : Value)
  | close (stop : Time)
  deriving DecidableEq

/-- A silent attempt does not tell its answer. -/
def Attempt.silent {State Answer : Type} (attempt : Attempt State Answer) : Attempt State Unit :=
  attempt.andThen fun _ next => .done () next

@[simp] theorem Attempt.state_silent {State Answer : Type} (attempt : Attempt State Answer) :
    attempt.silent.state = attempt.state := by
  unfold Attempt.silent Attempt.andThen
  split <;> rfl

/-- The state after two attempts is that of the second one, if the first one succeeds. -/
theorem Attempt.state_andThen {State Answer Next : Type} (attempt : Attempt State Answer)
    (next : Answer → State → Attempt State Next) :
    (attempt.andThen next).state =
      match attempt.result with
      | .ok answer => (next answer attempt.state).state
      | .error _ => attempt.state := by
  unfold Attempt.andThen
  cases attempt.result <;> rfl

/-- When two attempts in a row succeed, the first one did. -/
theorem Attempt.andThen_accepted {State Answer Next : Type} {attempt : Attempt State Answer}
    {next : Answer → State → Attempt State Next} {answer : Next}
    (accepted : (attempt.andThen next).result = .ok answer) :
    ∃ first, attempt.result = .ok first ∧ attempt.andThen next = next first attempt.state := by
  unfold Attempt.andThen at *
  cases result : attempt.result with
  | ok first => exact ⟨first, rfl, rfl⟩
  | error error => simp [result] at accepted

def History.write (history : History) : Write → Attempt History Unit
  | .resolve parent path => (history.resolve parent path).silent
  | .modify time quark value => history.modify time quark value
  | .amend quark value => history.amend quark value
  | .amendAt time quark value => history.amendAt time quark value
  | .close stop => (history.close stop).silent

/-- The history after a list of writes, of which some may be refused. -/
def History.writeAll (history : History) : List Write → History
  | [] => history
  | write :: rest => (history.write write).state.writeAll rest

theorem History.writeAll_append (history : History) (first second : List Write) :
    history.writeAll (first ++ second) = (history.writeAll first).writeAll second := by
  induction first generalizing history with
  | nil => rfl
  | cons write rest ih => exact ih (history.write write).state

/-- One call may be a write, a step of a replay or the use of some lanes. The replay and the lanes
are arbitrary, so they may have been used before in any way. -/
inductive History.Call : History → History → Prop
  | write (history : History) (write : Write) : Call history (history.write write).state
  | apply (replay : Replay) (event : Event) :
      Call replay.history (replay.apply event).state.history
  | run (replay : Replay) (events : List Event) :
      Call replay.history (replay.run events).state.history
  | finish (replay : Replay) (stop : Option Time) :
      Call replay.history (replay.finish stop).state.history
  | insert {Key : Type} [DecidableEq Key] (lanes : Lanes Key) (history : History) (key : Key)
      (time : Time) (payload : List (String × Value)) :
      Call history (lanes.insert history key time payload).state.2
  | remove {Key : Type} [DecidableEq Key] (lanes : Lanes Key) (history : History) (key : Key)
      (time : Time) : Call history (lanes.remove history key time).state.2

/-- Any number of calls leads from one history to another. -/
def History.Continues : History → History → Prop := Relation.ReflTransGen History.Call

/-- A reachable history arises from the empty one by calls. -/
def History.Reachable (history : History) : Prop := History.empty.Continues history

/-- Writes lead from one history to another. -/
def History.Leads (history next : History) : Prop := ∃ writes, history.writeAll writes = next

theorem History.Leads.refl (history : History) : history.Leads history := ⟨[], rfl⟩

theorem History.Leads.trans {history middle next : History} (first : history.Leads middle)
    (second : middle.Leads next) : history.Leads next := by
  obtain ⟨former, rfl⟩ := first
  obtain ⟨latter, rfl⟩ := second
  exact ⟨former ++ latter, history.writeAll_append former latter⟩

theorem History.leads_write (history : History) (write : Write) :
    history.Leads (history.write write).state := ⟨[write], rfl⟩

theorem History.leads_resolve (history : History) (parent : Option Quark) (path : List String) :
    history.Leads (history.resolve parent path).state := by
  simpa [History.write] using history.leads_write (.resolve parent path)

theorem History.leads_modify (history : History) (time : Time) (quark : Quark) (value : Value) :
    history.Leads (history.modify time quark value).state :=
  history.leads_write (.modify time quark value)

theorem History.leads_close (history : History) (stop : Time) :
    history.Leads (history.close stop).state := by
  simpa [History.write] using history.leads_write (.close stop)

/-- Applying an event resolves a path and then writes at most once. -/
theorem Replay.apply_leads (replay : Replay) (event : Event) :
    replay.history.Leads (replay.apply event).state.history := by
  let resolved := replay.history.resolve none (event.address.resolve replay.config.separator)
  have path : replay.history.Leads resolved.state := replay.history.leads_resolve none _
  rw [Replay.apply, Attempt.state_andThen]
  split
  · rename_i quark _
    cases event.operation with
    | modify =>
        have written := resolved.state.leads_modify event.time quark event.value
        simp only [Attempt.state_andThen]
        split <;> exact path.trans written
    | amend =>
        have written := resolved.state.leads_write (.amendAt event.time quark event.value)
        simp only [Replay.amend]
        split
        · exact path.trans written
        · split <;> exact path.trans written
        · exact path.trans written
  · exact path

theorem Replay.run_leads (replay : Replay) (events : List Event) :
    replay.history.Leads (replay.run events).state.history := by
  induction events generalizing replay with
  | nil => exact History.Leads.refl _
  | cons event rest ih =>
      have first := replay.apply_leads event
      rw [Replay.run, Attempt.state_andThen]
      split
      · exact first.trans (ih _)
      · exact first

theorem Replay.finish_leads (replay : Replay) (stop : Option Time) :
    replay.history.Leads (replay.finish stop).state.history := by
  rw [Replay.finish, Attempt.state_andThen]
  split <;> exact replay.history.leads_close (replay.endTime stop)

theorem SlotWriting.target_leads (writing : SlotWriting) (slot : Quark) (name : String) :
    writing.history.Leads (writing.target slot name).state.history := by
  unfold SlotWriting.target
  split
  · exact History.Leads.refl _
  · exact writing.history.leads_resolve (some slot) [name]

/-- Writing entries to a slot resolves and modifies one attribute after the other. -/
theorem SlotWriting.run_leads (writing : SlotWriting) (slot : Quark) (time : Time)
    (payload : List (String × Value)) :
    writing.history.Leads (writing.run slot time payload).state.history := by
  induction payload generalizing writing with
  | nil => exact History.Leads.refl _
  | cons entry rest ih =>
      obtain ⟨name, value⟩ := entry
      have target := writing.target_leads slot name
      rw [SlotWriting.run, Attempt.state_andThen]
      generalize writing.target slot name = found at target
      split
      · rename_i quark _
        have changed := found.state.history.leads_modify time quark value
        have others := ih ⟨(found.state.history.modify time quark value).state,
          found.state.written ++ [quark]⟩
        rw [Attempt.state_andThen]
        split
        · exact (target.trans changed).trans others
        · exact target.trans changed
      · exact target

theorem Lanes.writePayload_leads {Key : Type} (lanes : Lanes Key) (history : History) (slot : Nat)
    (time : Time) (payload : List (String × Value)) :
    history.Leads (lanes.writePayload history slot time payload).state.history := by
  have resolved := history.leads_resolve (some lanes.parent) [lanes.slotName slot]
  rw [Lanes.writePayload, Attempt.state_andThen]
  split
  · rename_i quark _
    exact resolved.trans (SlotWriting.run_leads ⟨_, []⟩ quark time payload)
  · exact resolved

theorem History.clearAll_leads (history : History) (time : Time) (quarks : List Quark) :
    history.Leads (history.clearAll time quarks) := by
  induction quarks generalizing history with
  | nil => exact History.Leads.refl _
  | cons quark rest ih => exact (history.leads_modify time quark .null).trans (ih _)

theorem History.clear_leads (history : History) (time : Time) (quarks : List Quark) :
    history.Leads (history.clear time quarks).state := by
  induction quarks generalizing history with
  | nil => exact History.Leads.refl _
  | cons quark rest ih =>
      have first := history.leads_modify time quark .null
      rw [History.clear, Attempt.state_andThen]
      split
      · exact first.trans (ih _)
      · exact first

theorem Lanes.insert_leads {Key : Type} [DecidableEq Key] (lanes : Lanes Key) (history : History)
    (key : Key) (time : Time) (payload : List (String × Value)) :
    history.Leads (lanes.insert history key time payload).state.2 := by
  unfold Lanes.insert
  split
  · rename_i lane _
    have written := lanes.writePayload_leads history lane.slot time payload
    dsimp only
    split <;> exact written
  · have written := lanes.allocate.2.writePayload_leads history lanes.allocate.1 time payload
    dsimp only
    split
    · exact written
    · exact written.trans (History.clearAll_leads _ time _)

theorem Lanes.remove_leads {Key : Type} [DecidableEq Key] (lanes : Lanes Key) (history : History)
    (key : Key) (time : Time) : history.Leads (lanes.remove history key time).state.2 := by
  unfold Lanes.remove
  split
  · exact History.Leads.refl _
  · rename_i lane _
    have cleared := history.clear_leads time lane.written
    rw [Attempt.state_andThen]
    split <;> exact cleared

/-- Every call is a list of writes. -/
theorem History.Call.leads {history next : History} (call : history.Call next) :
    history.Leads next := by
  cases call with
  | write _ write => exact history.leads_write write
  | apply replay event => exact replay.apply_leads event
  | run replay events => exact replay.run_leads events
  | finish replay stop => exact replay.finish_leads stop
  | insert lanes _ key time payload => exact lanes.insert_leads history key time payload
  | remove lanes _ key time => exact lanes.remove_leads history key time

/-- Calls of all kinds reach no more than writes do. -/
theorem History.continues_iff {history next : History} :
    history.Continues next ↔ history.Leads next := by
  constructor
  · intro path
    induction path with
    | refl => exact History.Leads.refl history
    | tail _ call ih => exact ih.trans call.leads
  · rintro ⟨writes, rfl⟩
    induction writes generalizing history with
    | nil => exact Relation.ReflTransGen.refl
    | cons write rest ih => exact Relation.ReflTransGen.head (History.Call.write history write) ih

theorem History.reachable_writeAll (writes : List Write) :
    (History.empty.writeAll writes).Reachable :=
  History.continues_iff.mpr ⟨writes, rfl⟩

/-- What every write keeps holds along every continuation. -/
theorem History.Continues.keeps {Kept : History → Prop} {history next : History}
    (path : history.Continues next)
    (step : ∀ before write, Kept before → Kept (before.write write).state)
    (start : Kept history) : Kept next := by
  obtain ⟨writes, rfl⟩ := History.continues_iff.mp path
  clear path
  induction writes generalizing history with
  | nil => exact start
  | cons write rest ih => exact ih (step history write start)

end Chronicle
