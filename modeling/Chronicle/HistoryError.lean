import Chronicle.Interval

/-!
The reasons for which a history refuses a call, and attempts, which keep the state that a refused
call leaves behind.
-/

namespace Chronicle

/-- A history refuses a call for one of these reasons. -/
inductive HistoryError where
  | timeBeforeLatest (time latest : Time)
  | endBeforeStart (quark : Quark) (start stop : Time)
  | notOngoing (quark : Quark)
  | alreadyOngoing (quark : Quark) (start : Time)
  | closedHistory
  | unknownPath (path : String)
  | unknownQuark (quark : Quark)
  deriving DecidableEq

/-- The caller may ignore the error and go on writing. -/
def HistoryError.recoverable : HistoryError → Bool
  | .notOngoing _ => true
  | .unknownPath _ => true
  | _ => false

def HistoryError.message : HistoryError → String
  | .timeBeforeLatest time latest =>
      "Non-monotonic time: write at " ++ toString time ++ " precedes latest accepted time "
        ++ toString latest
  | .endBeforeStart quark start stop =>
      "Invalid time order for quark " ++ toString quark ++ ": end " ++ toString stop
        ++ " is before start " ++ toString start
  | .notOngoing quark => "No ongoing interval for quark " ++ toString quark
  | .alreadyOngoing quark start =>
      "Quark " ++ toString quark ++ " already has an ongoing interval started at "
        ++ toString start
  | .closedHistory => "State history is closed to further writes"
  | .unknownPath path => "Attribute not found: " ++ path
  | .unknownQuark quark =>
      "Quark " ++ toString quark ++ " does not belong to this attribute tree"

/-- An attempt answers or fails, and says in both cases which state it leaves. -/
structure Attempt (State Answer : Type) where
  result : Except HistoryError Answer
  state : State

def Attempt.done {State Answer : Type} (answer : Answer) (state : State) :
    Attempt State Answer := ⟨.ok answer, state⟩

def Attempt.fail {State Answer : Type} (error : HistoryError) (state : State) :
    Attempt State Answer := ⟨.error error, state⟩

/-- The next attempt starts from the answer and the state of the first, unless the first failed. -/
def Attempt.andThen {State Answer Next : Type} (attempt : Attempt State Answer)
    (next : Answer → State → Attempt State Next) : Attempt State Next :=
  match attempt.result with
  | .ok answer => next answer attempt.state
  | .error error => .fail error attempt.state

/-- An attempt on a part of a state is an attempt on the whole. -/
def Attempt.within {State Whole Answer : Type} (attempt : Attempt State Answer)
    (embed : State → Whole) : Attempt Whole Answer :=
  ⟨attempt.result, embed attempt.state⟩

@[simp] theorem Attempt.andThen_done {State Answer Next : Type} (answer : Answer) (state : State)
    (next : Answer → State → Attempt State Next) :
    (Attempt.done answer state).andThen next = next answer state := rfl

@[simp] theorem Attempt.andThen_fail {State Answer Next : Type} (error : HistoryError)
    (state : State) (next : Answer → State → Attempt State Next) :
    (Attempt.fail error state).andThen next = .fail error state := rfl

@[simp] theorem Attempt.result_done {State Answer : Type} (answer : Answer) (state : State) :
    (Attempt.done answer state).result = .ok answer := rfl

@[simp] theorem Attempt.state_done {State Answer : Type} (answer : Answer) (state : State) :
    (Attempt.done answer state).state = state := rfl

@[simp] theorem Attempt.result_fail {State Answer : Type} (error : HistoryError) (state : State) :
    (Attempt.fail error state : Attempt State Answer).result = .error error := rfl

@[simp] theorem Attempt.state_fail {State Answer : Type} (error : HistoryError) (state : State) :
    (Attempt.fail error state : Attempt State Answer).state = state := rfl

/-- Successful attempts are equal when their answers and the states they leave are. -/
theorem Attempt.done_inj {State Answer : Type} {answer other : Answer} {state next : State} :
    Attempt.done answer state = .done other next ↔ answer = other ∧ state = next := by
  simp [Attempt.done]

@[simp] theorem Attempt.result_within {State Whole Answer : Type} (attempt : Attempt State Answer)
    (embed : State → Whole) : (attempt.within embed).result = attempt.result := rfl

@[simp] theorem Attempt.state_within {State Whole Answer : Type} (attempt : Attempt State Answer)
    (embed : State → Whole) : (attempt.within embed).state = embed attempt.state := rfl

end Chronicle
