import Chronicle.Proofs.CheckedReplays
import Chronicle.Proofs.Exports

/-!
Nothing that is called on a history breaks off, in whatever order it is called and with whatever quarks,
times, paths and values. The walk from an attribute up to the top of the tree ends, and every interval that
is stored or read has a duration.
-/

namespace Chronicle

section Walks

variable {tree : Tree}

/-- One turn of the walk up the tree notes a name and goes on at the parent. The walk is over behind a top
attribute, and where there is no attribute. -/
def Tree.turn (tree : Tree) : Option Quark × List String → Option (Option Quark × List String)
  | (none, _) => none
  | (some quark, names) =>
      (tree.nodes[quark]?).map fun node => (node.parent, names ++ [node.name])

/-- The walk is over after the given number of turns, and has noted the names by then. -/
inductive Tree.WalksUp (tree : Tree) : Nat → Option Quark × List String → List String → Prop
  | over {place : Option Quark × List String} (last : tree.turn place = none) :
      WalksUp tree 0 place place.2
  | turn {turns : Nat} {place next : Option Quark × List String} {names : List String}
      (moves : tree.turn place = some next) (rest : WalksUp tree turns next names) :
      WalksUp tree (turns + 1) place names

/-- A parent has a smaller quark, so a walk takes at most one turn for every quark up to the first. -/
theorem Tree.Linked.walksUp_climb (linked : tree.Linked) {quark steps : Nat} (enough : quark < steps)
    (names : List String) :
    ∃ turns ≤ quark + 1,
      tree.WalksUp turns (some quark, names) (names ++ (tree.climb steps quark).reverse) := by
  induction steps generalizing quark names with
  | zero => exact absurd enough (Nat.not_lt_zero quark)
  | succ steps ih =>
      cases found : tree.nodes[quark]? with
      | none =>
          refine ⟨0, Nat.zero_le _, ?_⟩
          simp only [Tree.climb, found, List.reverse_nil, List.append_nil]
          exact .over (by simp only [Tree.turn, found, Option.map_none])
      | some node =>
          have moves : tree.turn (some quark, names) = some (node.parent, names ++ [node.name]) := by
            simp only [Tree.turn, found, Option.map_some]
          cases above : node.parent with
          | none =>
              refine ⟨1, by lia, .turn moves ?_⟩
              simp only [Tree.climb, found, above, List.reverse_singleton]
              exact .over rfl
          | some parent =>
              have before : parent < quark := by
                apply linked.parent_lt quark parent node.name
                rw [Tree.label, found, Option.map_some, above]
              obtain ⟨turns, few, rest⟩ := ih (show parent < steps by lia) (names ++ [node.name])
              refine ⟨turns + 1, by lia, .turn moves ?_⟩
              simp only [Tree.climb, found, above, List.reverse_append, List.reverse_singleton]
              rwa [← List.append_assoc]

/-- The walk from any quark ends with its segments. It takes no turn where the quark is not in the tree. -/
theorem Tree.Linked.walksUp_segmentsOf (linked : tree.Linked) (quark : Quark) :
    ∃ turns ≤ tree.size, tree.WalksUp turns (some quark, []) (tree.segmentsOf quark).reverse := by
  by_cases inside : quark < tree.size
  · obtain ⟨turns, few, walk⟩ := linked.walksUp_climb inside []
    exact ⟨turns, by lia, walk⟩
  · have missing : tree.nodes[quark]? = none := Array.getElem?_eq_none (Nat.le_of_not_lt inside)
    have nothing : tree.segmentsOf quark = [] := by
      rw [Tree.segmentsOf]
      cases tree.nodes.size with
      | zero => rfl
      | succ steps => simp only [Tree.climb, missing]
    rw [nothing]
    exact ⟨0, Nat.zero_le _, .over (by simp only [Tree.turn, missing, Option.map_none])⟩

end Walks

section Durations

variable {history : History} {window : Window} {interval : Interval}

/-- The duration of an interval is a difference of its times. -/
def Interval.checkedDuration (interval : Interval) : Option Nat :=
  Checked.sub interval.stop interval.start

/-- A window is made for the attribute with a quark or at a path. -/
inductive History.Makes (history : History) : Window → Prop
  | ofQuark {quark : Quark} {first last : Time} {window : Window}
      (made : history.window quark first last = .ok window) : Makes history window
  | ofPath {separator : Char} {path : String} {first last : Time} {window : Window}
      (made : history.windowOfPath separator path first last = .ok window) : Makes history window

theorem History.Tiled.ordered (tiled : history.Tiled)
    (member : interval ∈ history.store.allIntervals) : interval.start ≤ interval.stop := by
  rw [history.store.allIntervals_eq] at member
  obtain ⟨quark, _, within⟩ := List.mem_flatMap.mp member
  exact (tiled.tiling quark).ordered interval within

/-- An ongoing interval counts as reaching up to its own start at least, whatever the latest time is. -/
theorem History.ongoingInWindow_ordered {quark : Quark} {last : Time}
    (copied : history.ongoingInWindow quark last = some interval) :
    interval.start ≤ interval.stop := by
  obtain ⟨ongoing, _, rfl⟩ := Option.map_eq_some_iff.mp copied
  exact le_max_right _ _

theorem History.window_ongoing {quark : Quark} {first last : Time}
    (made : history.window quark first last = .ok window) :
    window.ongoing = history.ongoingInWindow quark last := by
  unfold History.window at made
  split_ifs at made
  rw [← Except.ok.inj made]

theorem History.Makes.ordered (makes : history.Makes window)
    (copied : window.ongoing = some interval) : interval.start ≤ interval.stop := by
  cases makes with
  | ofQuark made =>
      rw [History.window_ongoing made] at copied
      exact History.ongoingInWindow_ordered copied
  | @ofPath separator path _ _ _ made =>
      rw [History.windowOfPath] at made
      cases found : history.lookupOrFail separator path with
      | error error =>
          rw [found] at made
          cases made
      | ok quark =>
          rw [found] at made
          rw [History.window_ongoing made] at copied
          exact History.ongoingInWindow_ordered copied

/-- A step of a window reads an interval of the history as it is now, or the copy that was made with the
window. -/
theorem History.Tiled.step_ordered (tiled : history.Tiled) {cursor : Cursor}
    (copies : ∀ copy, window.ongoing = some copy → copy.start ≤ copy.stop)
    (read : (window.step history cursor).1 = some interval) : interval.start ≤ interval.stop := by
  unfold Window.step at read
  split_ifs at read
  · have member : interval ∈ history.store.intervalsOf window.quark :=
      Array.mem_toList_iff.mpr (Array.mem_of_getElem? read)
    exact (tiled.tiling window.quark).ordered interval member
  · exact copies interval read

end Durations

section Calls

/-- A call is a write, a step of a replay or the use of some lanes. The replay has any configuration and
any counters, and the lanes may have been used before in any way. -/
inductive HistoryCall : Type 1 where
  | write (write : Write)
  | apply (config : Config) (counters : Counters) (event : Event)
  | run (config : Config) (counters : Counters) (events : List Event)
  | finish (config : Config) (counters : Counters) (stop : Option Time)
  | insert {Key : Type} [DecidableEq Key] (lanes : Lanes Key) (key : Key) (time : Time)
      (payload : List (String × Value))
  | remove {Key : Type} [DecidableEq Key] (lanes : Lanes Key) (key : Key) (time : Time)

/-- What a call leaves of a history, whether it is refused or not. -/
def History.call (history : History) : HistoryCall → History
  | .write write => (history.write write).state
  | .apply config counters event =>
      (Replay.apply ⟨config, history, counters⟩ event).state.history
  | .run config counters events =>
      (Replay.run ⟨config, history, counters⟩ events).state.history
  | .finish config counters stop =>
      (Replay.finish ⟨config, history, counters⟩ stop).state.history
  | @HistoryCall.insert _ _ lanes key time payload => (lanes.insert history key time payload).state.2
  | @HistoryCall.remove _ _ lanes key time => (lanes.remove history key time).state.2

/-- What a checked call leaves of a history, if it does not break off. -/
def History.checkedCall (history : History) : HistoryCall → Option History
  | .write write => (history.checkedWrite write).map Attempt.state
  | .apply config counters event =>
      (Replay.checkedApply ⟨config, history, counters⟩ event).map fun attempt =>
        attempt.state.history
  | .run config counters events =>
      (Replay.checkedRun ⟨config, history, counters⟩ events).map fun attempt =>
        attempt.state.history
  | .finish config counters stop =>
      (Replay.checkedFinish ⟨config, history, counters⟩ stop).map fun attempt =>
        attempt.state.history
  | @HistoryCall.insert _ _ lanes key time payload =>
      (lanes.checkedInsert history key time payload).map fun attempt => attempt.state.2
  | @HistoryCall.remove _ _ lanes key time =>
      (lanes.checkedRemove history key time).map fun attempt => attempt.state.2

def History.callAll (history : History) (calls : List HistoryCall) : History :=
  calls.foldl History.call history

/-- The first call that breaks off ends the calls. -/
def History.checkedCallAll (history : History) : List HistoryCall → Option History
  | [] => some history
  | call :: rest => (history.checkedCall call).bind fun next => next.checkedCallAll rest

variable {history : History}

theorem History.call_leads (history : History) (call : HistoryCall) :
    history.Leads (history.call call) := by
  cases call with
  | write write => exact history.leads_write write
  | apply config counters event => exact Replay.apply_leads ⟨config, history, counters⟩ event
  | run config counters events => exact Replay.run_leads ⟨config, history, counters⟩ events
  | finish config counters stop => exact Replay.finish_leads ⟨config, history, counters⟩ stop
  | insert lanes key time payload => exact lanes.insert_leads history key time payload
  | remove lanes key time => exact lanes.remove_leads history key time

theorem History.callAll_leads (history : History) (calls : List HistoryCall) :
    history.Leads (history.callAll calls) := by
  induction calls generalizing history with
  | nil => exact History.Leads.refl history
  | cons call rest ih => exact (history.call_leads call).trans (ih (history.call call))

theorem History.Sound.checkedCall (sound : history.Sound) (call : HistoryCall) :
    history.checkedCall call = some (history.call call) := by
  cases call with
  | write write => rw [History.checkedCall, sound.checkedWrite, Option.map_some, History.call]
  | apply config counters event =>
      rw [History.checkedCall, Replay.checkedApply_eq sound, Option.map_some, History.call]
  | run config counters events =>
      rw [History.checkedCall, Replay.checkedRun_eq sound, Option.map_some, History.call]
  | finish config counters stop =>
      rw [History.checkedCall, Replay.checkedFinish_eq sound, Option.map_some, History.call]
  | insert lanes key time payload =>
      rw [History.checkedCall, Lanes.checkedInsert_eq sound, Option.map_some, History.call]
  | remove lanes key time =>
      rw [History.checkedCall, Lanes.checkedRemove_eq sound, Option.map_some, History.call]

theorem History.Sound.checkedCallAll (sound : history.Sound) (calls : List HistoryCall) :
    history.checkedCallAll calls = some (history.callAll calls) := by
  induction calls generalizing history with
  | nil => rfl
  | cons call rest ih =>
      rw [History.checkedCallAll, sound.checkedCall, Option.bind_some]
      exact ih ((history.call_leads call).sound sound)

end Calls

/-- Whatever is called on an empty history, no call breaks off. At every moment the walk up the tree from any
quark ends, after no more turns than there are attributes, and has noted the segments of the quark. Every
stored interval has a duration, and so has every interval that a window reads, at once or after more
calls. -/
theorem History.unbroken (calls : List HistoryCall) :
    let history := History.empty.callAll calls
    History.empty.checkedCallAll calls = some history ∧
      (∀ quark, ∃ turns ≤ history.tree.size, history.tree.WalksUp turns (some quark, [])
        (history.tree.segmentsOf quark).reverse) ∧
      (∀ interval ∈ history.store.allIntervals,
        interval.checkedDuration = some interval.duration) ∧
      ∀ window, history.Makes window → ∀ more cursor interval,
        (window.step (history.callAll more) cursor).1 = some interval →
          interval.checkedDuration = some interval.duration := by
  intro history
  have sound : history.Sound := (History.empty.callAll_leads calls).sound History.sound_empty
  refine ⟨History.sound_empty.checkedCallAll calls, sound.linked.walksUp_segmentsOf, ?_, ?_⟩
  · intro interval member
    exact Checked.sub_le (sound.tiled.ordered member)
  · intro window makes more cursor interval read
    have later : (history.callAll more).Sound := (history.callAll_leads more).sound sound
    exact Checked.sub_le (later.tiled.step_ordered (fun _ => makes.ordered) read)

def hastyCalls : List HistoryCall :=
  [.write (.resolve none ["disk", "status"]), .write (.modify 0 1 (.text "idle")),
    .write (.modify 0 1 (.text "off")), .write (.resolve (some 9) ["load"]),
    .write (.modify 3 7 .null),
    .apply .default .zero ⟨5, .joined "disk/status", .modify, .text "busy"⟩,
    .insert (Lanes.empty 0 3) 100 6 [("status", .long 1)]]

/-- The status of the disk is written twice at 0, a path below one unknown attribute is resolved, another
one is written at 3, and a lane at 6. A window that was made then reads the status up to 4, also after
everything was closed. -/
theorem History.unbroken_of_disk :
    let history := History.empty.callAll hastyCalls
    let off : Interval := ⟨1, 0, 4, .text "off"⟩
    (History.empty.checkedCallAll hastyCalls).isSome = true ∧
      ∃ window, history.Makes window ∧
        (window.step (history.callAll [.finish .default .zero (some 9)]) window.cursor).1 =
          some off ∧
        off.checkedDuration = some 4 := by
  intro history off
  obtain ⟨whole, _, _, read⟩ := History.unbroken hastyCalls
  have made : history.window 1 0 2 = .ok ⟨1, 0, 1, none⟩ := by decide
  have step : ((⟨1, 0, 1, none⟩ : Window).step
      (history.callAll [.finish .default .zero (some 9)]) ⟨0, false⟩).1 = some off := by decide
  exact ⟨by rw [whole]; rfl, _, .ofQuark made, step, read _ (.ofQuark made) _ _ off step⟩

end Chronicle
