import Chronicle.Ascending
import Chronicle.History.Basic

/-!
Lanes for keys that are live at the same time. Every live key holds the smallest slot that was free
when it came, and the slot is an attribute below a common parent. A key that leaves clears what was
written for it before its slot is free again.
-/

namespace Chronicle

/-- A lane is what a live key holds: its slot and the attributes written for it. -/
structure Lane where
  slot : Nat
  written : List Quark
  deriving DecidableEq, Inhabited

/-- Every attribute is noted once. -/
def Lane.note (lane : Lane) (quarks : List Quark) : Lane :=
  { lane with
    written := quarks.foldl
      (fun noted quark => if quark ∈ noted then noted else noted ++ [quark]) lane.written }

/-- Lanes below a parent: the live keys, the free slots in ascending order, and the number of slots
that were ever given out. -/
structure Lanes (Key : Type) where
  parent : Quark
  width : Nat
  live : List (Key × Lane)
  free : List Nat
  issued : Nat
  deriving DecidableEq

def Lanes.empty {Key : Type} (parent : Quark) (width : Nat) : Lanes Key :=
  ⟨parent, width, [], [], 0⟩

/-- The number of live keys. -/
def Lanes.occupancy {Key : Type} (lanes : Lanes Key) : Nat := lanes.live.length

def Lanes.laneOf {Key : Type} [DecidableEq Key] (lanes : Lanes Key) (key : Key) : Option Lane :=
  lanes.live.lookup key

def Lanes.slotOf {Key : Type} [DecidableEq Key] (lanes : Lanes Key) (key : Key) : Option Nat :=
  (lanes.laneOf key).map Lane.slot

/-- The attribute of a slot is named by its number, filled with zeros to the width. -/
def Lanes.slotName {Key : Type} (lanes : Lanes Key) (slot : Nat) : String :=
  let digits := Nat.toDigits 10 slot
  String.ofList (List.replicate (lanes.width - digits.length) '0' ++ digits)

/-- The smallest free slot is taken, and a new one is issued where none is free. -/
def Lanes.allocate {Key : Type} (lanes : Lanes Key) : Nat × Lanes Key :=
  match lanes.free with
  | slot :: rest => (slot, { lanes with free := rest })
  | [] => (lanes.issued, { lanes with issued := lanes.issued + 1 })

/-- A slot that is released is free again. -/
def Lanes.release {Key : Type} (lanes : Lanes Key) (slot : Nat) : Lanes Key :=
  { lanes with free := Ascending.insert slot lanes.free }

/-- The lane of a key is replaced, or comes last where the key is new. -/
def Lanes.put {Key : Type} [DecidableEq Key] (lanes : Lanes Key) (key : Key) (lane : Lane) :
    Lanes Key :=
  { lanes with
    live :=
      if (lanes.laneOf key).isSome then
        lanes.live.map fun entry => if entry.1 = key then (key, lane) else entry
      else lanes.live ++ [(key, lane)] }

def Lanes.drop {Key : Type} [DecidableEq Key] (lanes : Lanes Key) (key : Key) : Lanes Key :=
  { lanes with live := lanes.live.filter fun entry => entry.1 ≠ key }

/-- What is being written to a slot: the history so far and the attributes written, in order. -/
structure SlotWriting where
  history : History
  written : List Quark

/-- The attribute of an entry below a slot; the empty name is the slot itself. -/
def SlotWriting.target (writing : SlotWriting) (slot : Quark) (name : String) :
    Attempt SlotWriting Quark :=
  if name = "" then .done slot writing
  else
    (writing.history.resolve (some slot) [name]).within fun history =>
      { writing with history := history }

/-- Writing the entries of a payload stops at the first that is refused. -/
def SlotWriting.run (writing : SlotWriting) (slot : Quark) (time : Time) :
    List (String × Value) → Attempt SlotWriting Unit
  | [] => .done () writing
  | (name, value) :: rest =>
      (writing.target slot name).andThen fun quark found =>
        ((found.history.modify time quark value).within fun history =>
            { found with history := history }).andThen fun _ changed =>
          { changed with written := changed.written ++ [quark] }.run slot time rest

/-- Writing a payload resolves the attribute of the slot first. -/
def Lanes.writePayload {Key : Type} (lanes : Lanes Key) (history : History) (slot : Nat)
    (time : Time) (payload : List (String × Value)) : Attempt SlotWriting Unit :=
  ((history.resolve (some lanes.parent) [lanes.slotName slot]).within fun resolved =>
      (⟨resolved, []⟩ : SlotWriting)).andThen fun quark writing =>
    writing.run quark time payload

/-- Clearing attributes goes on where one is refused. -/
def History.clearAll (history : History) (time : Time) (quarks : List Quark) : History :=
  quarks.foldl (fun current quark => (current.modify time quark .null).state) history

/-- Clearing attributes stops at the first that is refused. -/
def History.clear (history : History) (time : Time) : List Quark → Attempt History Unit
  | [] => .done () history
  | quark :: rest =>
      (history.modify time quark .null).andThen fun _ cleared => cleared.clear time rest

/-- A key that is already live keeps its slot, and what was written for it before a failure stays
noted. A new key whose payload is refused leaves nothing open in its slot, which is free again. -/
def Lanes.insert {Key : Type} [DecidableEq Key] (lanes : Lanes Key) (history : History)
    (key : Key) (time : Time) (payload : List (String × Value)) :
    Attempt (Lanes Key × History) Nat :=
  match lanes.laneOf key with
  | some lane =>
      let attempt := lanes.writePayload history lane.slot time payload
      let noted := lanes.put key (lane.note attempt.state.written)
      match attempt.result with
      | .ok () => .done lane.slot (noted, attempt.state.history)
      | .error error => .fail error (noted, attempt.state.history)
  | none =>
      let (slot, granted) := lanes.allocate
      let attempt := granted.writePayload history slot time payload
      match attempt.result with
      | .ok () =>
          let lane := (⟨slot, []⟩ : Lane).note attempt.state.written
          .done slot (granted.put key lane, attempt.state.history)
      | .error error =>
          let cleared := attempt.state.history.clearAll time attempt.state.written
          .fail error (granted.release slot, cleared)

/-- A key that leaves clears its attributes and frees its slot; a key that is not live has nothing
to leave. -/
def Lanes.remove {Key : Type} [DecidableEq Key] (lanes : Lanes Key) (history : History)
    (key : Key) (time : Time) : Attempt (Lanes Key × History) (Option Nat) :=
  match lanes.laneOf key with
  | none => .done none (lanes, history)
  | some lane =>
      ((history.clear time lane.written).within fun cleared => (lanes, cleared)).andThen
        fun _ state => .done (some lane.slot) ((lanes.drop key).release lane.slot, state.2)

end Chronicle
