import Chronicle.Proofs.LaneWrites
import Chronicle.Proofs.ReachableHistories

/-!
Lanes are exclusive and clean: no attribute is noted for two live keys, what is noted for no live key
holds no value, and a key that leaves has nothing open of all that was written for it.
-/

namespace Chronicle

section Below

variable {tree grown : Tree} {parent quark : Quark}

/-- An attribute is below a parent when a path with at least one segment leads to it from there. -/
def Tree.Below (tree : Tree) (parent quark : Quark) : Prop :=
  ∃ path, path ≠ [] ∧ tree.find (some parent) path = some quark

theorem Tree.Linked.below_iff (linked : tree.Linked) (inside : tree.contains parent = true) :
    tree.Below parent quark ↔ tree.contains quark = true ∧
      ∃ path, path ≠ [] ∧ tree.segmentsOf quark = tree.segmentsOf parent ++ path := by
  simp only [Tree.Below, Tree.find, inside, if_true, linked.walk_some_iff inside]
  tauto

/-- Growth puts no attribute of the old tree below another one. -/
theorem Tree.Grows.below_iff (grows : tree.Grows grown) (linked : tree.Linked)
    (after : grown.Linked) (inside : tree.contains parent = true)
    (old : tree.contains quark = true) : grown.Below parent quark ↔ tree.Below parent quark := by
  rw [linked.below_iff inside, after.below_iff (grows.contains inside),
    grows.segmentsOf linked after inside, grows.segmentsOf linked after old]
  simp [old, grows.contains old]

end Below

/-- An idle attribute was never opened or holds no value at present. -/
def Store.Idle (store : Store) (quark : Quark) : Prop :=
  ¬ store.Used quark ∨ ∃ start, store.ongoingOf quark = some ⟨start, .null⟩

/-- The attribute that a write is about, if it is about a single one. -/
def Write.target : Write → Option Quark
  | .modify _ quark _ => some quark
  | .amend quark _ => some quark
  | .amendAt _ quark _ => some quark
  | .resolve _ _ => none
  | .close _ => none

/-- A write spares what is below a parent when it is refused or is about no attribute there. -/
def Write.Spares (write : Write) (history : History) (parent : Quark) : Prop :=
  (∃ error, (history.write write).result = .error error) ∨
    ∀ quark, write.target = some quark → ¬ history.tree.Below parent quark

/-- A session uses lanes on a history. Its log keeps for each key the attributes written for it since
it was inserted, and is no part of the lanes. -/
structure LaneSession (Key : Type) where
  lanes : Lanes Key
  history : History
  log : Key → List Quark

/-- A session starts with lanes that were never used. -/
def LaneSession.start {Key : Type} (history : History) (parent : Quark) (width : Nat) :
    LaneSession Key := ⟨Lanes.empty parent width, history, fun _ => []⟩

def LaneSession.write {Key : Type} (session : LaneSession Key) (write : Write) :
    LaneSession Key := { session with history := (session.history.write write).state }

section Session

variable {Key : Type} [DecidableEq Key]

/-- The log of a key that is inserted anew starts again. -/
def LaneSession.former (session : LaneSession Key) (key : Key) : List Quark :=
  if (session.lanes.laneOf key).isSome then session.log key else []

def LaneSession.insert (session : LaneSession Key) (key : Key) (time : Time)
    (payload : List (String × Value)) : LaneSession Key :=
  let after := (session.lanes.insert session.history key time payload).state
  let marked := session.lanes.marked session.history (session.lanes.assign key).2.slot time payload
  ⟨after.1, after.2, Function.update session.log key (session.former key ++ marked)⟩

def LaneSession.remove (session : LaneSession Key) (key : Key) (time : Time) : LaneSession Key :=
  let after := (session.lanes.remove session.history key time).state
  { session with lanes := after.1, history := after.2 }

/-- A session goes on by a write that spares what is below the parent of the lanes, or by inserting
or removing a key. Calls that fail count as well. -/
inductive LaneSession.Step : LaneSession Key → LaneSession Key → Prop
  | write (session : LaneSession Key) (write : Write)
      (spares : write.Spares session.history session.lanes.parent) :
      Step session (session.write write)
  | insert (session : LaneSession Key) (key : Key) (time : Time)
      (payload : List (String × Value)) : Step session (session.insert key time payload)
  | remove (session : LaneSession Key) (key : Key) (time : Time) :
      Step session (session.remove key time)

/-- The attribute is noted for a live key. -/
def Lanes.Notes (lanes : Lanes Key) (quark : Quark) : Prop :=
  ∃ key lane, lanes.laneOf key = some lane ∧ quark ∈ lane.written

/-- In a clean session the noted attributes of a key lie in its slot and include all that is logged
for it, and below the parent only noted attributes hold values. -/
structure LaneSession.Clean (session : LaneSession Key) (parent : Quark) : Prop where
  sound : session.history.Sound
  placed : session.lanes.parent = parent
  inside : session.history.tree.contains parent = true
  allotted : session.lanes.Allotted []
  within : ∀ key lane, session.lanes.laneOf key = some lane → ∀ quark ∈ lane.written,
    ∃ rest, session.history.tree.walk (some parent) (session.lanes.slotName lane.slot :: rest) =
      some quark
  idle : session.history.closed = false → ∀ quark, session.history.tree.Below parent quark →
    ¬ session.lanes.Notes quark → session.history.store.Idle quark
  logged : ∀ key lane, session.lanes.laneOf key = some lane →
    ∀ quark ∈ session.log key, quark ∈ lane.written

variable {session : LaneSession Key} {parent : Quark}

theorem LaneSession.Clean.contains (clean : session.Clean parent) {key : Key} {lane : Lane}
    (held : session.lanes.laneOf key = some lane) :
    ∀ quark ∈ lane.written, session.history.tree.contains quark = true := by
  intro quark member
  obtain ⟨rest, reached⟩ := clean.within key lane held quark member
  exact clean.sound.linked.contains_of_walk clean.inside reached

/-- What is noted for no live key stays idle when a growing history leaves it as it is. -/
theorem LaneSession.Clean.idle_kept (clean : session.Clean parent) {after : History}
    (linked : after.tree.Linked) (grows : session.history.tree.Grows after.tree)
    (running : session.history.closed = false) {quark : Quark}
    (kept : after.store.intervalsOf quark = session.history.store.intervalsOf quark ∧
      after.store.ongoingOf quark = session.history.store.ongoingOf quark)
    (below : after.tree.Below parent quark) (unnoted : ¬ session.lanes.Notes quark) :
    after.store.Idle quark := by
  unfold Store.Idle Store.Used
  rw [kept.1, kept.2]
  by_cases old : session.history.tree.contains quark = true
  · exact clean.idle running quark
      ((grows.below_iff clean.sound.linked linked clean.inside old).mp below) unnoted
  · exact Or.inl fun used => old (clean.sound.tiled.issued quark used)

/-- A write that leaves the history open and is about an attribute is about this one only. -/
theorem Write.target_of_concerns {write : Write} {history : History} {quark : Quark}
    (about : write.concerns quark = true) (running : (history.written write).closed = false) :
    write.target = some quark ∧ (history.written write).tree = history.tree := by
  cases write with
  | resolve place path => cases about
  | modify time other value => exact ⟨congrArg some (of_decide_eq_true about), rfl⟩
  | amend other value => exact ⟨congrArg some (of_decide_eq_true about), rfl⟩
  | amendAt time other value => exact ⟨congrArg some (of_decide_eq_true about), rfl⟩
  | close stop => cases running

/-- A write that leaves the history open and spares what is below the parent is about no attribute
there. -/
theorem LaneSession.Clean.spared (clean : session.Clean parent) {write : Write}
    (granted : write.fault session.history = none)
    (spares : write.Spares session.history parent)
    (running : (session.history.written write).closed = false) {quark : Quark}
    (below : (session.history.written write).tree.Below parent quark) :
    write.concerns quark = false := by
  rcases spares with ⟨error, failed⟩ | apart
  · rw [clean.sound.write_eq write, granted] at failed
    cases failed
  · by_contra about
    obtain ⟨target, same⟩ := Write.target_of_concerns (eq_true_of_ne_false about) running
    rw [same] at below
    exact apart quark target below

/-- A write that spares what is below the parent keeps a session clean. -/
theorem LaneSession.Clean.write (clean : session.Clean parent) (write : Write)
    (spares : write.Spares session.history session.lanes.parent) :
    (session.write write).Clean parent := by
  unfold LaneSession.write
  rw [clean.sound.write_eq write]
  rw [clean.placed] at spares
  cases granted : write.fault session.history with
  | some error => exact clean
  | none =>
      have sound := clean.sound.written granted
      have grows := clean.sound.grows_written granted
      refine ⟨sound, clean.placed, grows.contains clean.inside, clean.allotted, ?_, ?_,
        clean.logged⟩
      · intro key lane held quark member
        obtain ⟨rest, reached⟩ := clean.within key lane held quark member
        exact ⟨rest, grows.walk clean.sound.linked sound.linked reached⟩
      · intro running quark below unnoted
        obtain ⟨row, state, same⟩ := clean.sound.written_frame granted
          (clean.spared granted spares running below)
        exact clean.idle_kept sound.linked grows (same.symm.trans running) ⟨row, state⟩ below unnoted

/-- What stays in the log of a key that is inserted is noted for it. -/
theorem LaneSession.Clean.former_noted (clean : session.Clean parent) {key : Key} {quark : Quark}
    (member : quark ∈ session.former key) :
    ∃ lane, session.lanes.laneOf key = some lane ∧ quark ∈ lane.written := by
  unfold LaneSession.former at member
  cases held : session.lanes.laneOf key with
  | none => simp [held] at member
  | some lane =>
      rw [held] at member
      exact ⟨lane, rfl, clean.logged key lane held quark member⟩

/-- A session stays clean when a key is refused and the tree grows. -/
theorem LaneSession.Clean.refused (clean : session.Clean parent) (key : Key) {grown : Tree}
    (linked : grown.Linked) (grows : session.history.tree.Grows grown) :
    LaneSession.Clean ⟨session.lanes.refuse key, session.history.withTree grown,
      Function.update session.log key (session.former key)⟩ parent := by
  obtain ⟨placed, slotName⟩ := session.lanes.place_refuse key
  constructor
  case sound => exact clean.sound.withTree linked grows
  case placed => exact placed.trans clean.placed
  case inside => exact grows.contains clean.inside
  case allotted => exact clean.allotted.refuse key
  case within =>
    intro other lane held quark member
    rw [Lanes.laneOf_refuse] at held
    obtain ⟨rest, reached⟩ := clean.within other lane held quark member
    rw [slotName]
    exact ⟨rest, grows.walk clean.sound.linked linked reached⟩
  case idle =>
    intro running quark below unnoted
    simp only [Lanes.Notes, Lanes.laneOf_refuse] at unnoted
    exact clean.idle_kept linked grows running ⟨rfl, rfl⟩ below unnoted
  case logged =>
    intro other lane held quark member
    rw [Lanes.laneOf_refuse] at held
    dsimp only at member
    by_cases same : other = key
    · subst same
      rw [Function.update_self] at member
      obtain ⟨former, present, noted⟩ := clean.former_noted member
      obtain rfl : former = lane := Option.some.inj (present.symm.trans held)
      exact noted
    · rw [Function.update_of_ne same] at member
      exact clean.logged other lane held quark member

/-- A session stays clean when all that is written below the slot of a key is noted for it. -/
theorem LaneSession.Clean.assigned (clean : session.Clean parent) (key : Key) {time : Time}
    {payload : List (String × Value)} {entries : List (Quark × Value)} {place : Quark}
    {after : History} (stamped : session.history.Stamped time entries after)
    (reached : after.tree.walk (some parent)
      [session.lanes.slotName (session.lanes.assign key).2.slot] = some place)
    (names : after.tree.Names place payload entries) :
    LaneSession.Clean ⟨(session.lanes.assign key).1.put key
        ((session.lanes.assign key).2.note (entries.map Prod.fst)), after,
      Function.update session.log key (session.former key ++ entries.map Prod.fst)⟩ parent := by
  obtain ⟨placed, slotName⟩ := session.lanes.place_assign key
  let noted := (session.lanes.assign key).2.note (entries.map Prod.fst)
  have mem_noted (quark : Quark) : quark ∈ noted.written ↔
      quark ∈ (session.lanes.assign key).2.written ∨ quark ∈ entries.map Prod.fst :=
    Lane.mem_note _ _ quark
  have own : ((session.lanes.assign key).1.put key noted).laneOf key = some noted := by
    rw [Lanes.laneOf_put, if_pos rfl]
  have others {other : Key} (apart : other ≠ key) :
      ((session.lanes.assign key).1.put key noted).laneOf other = session.lanes.laneOf other := by
    rw [Lanes.laneOf_put, if_neg apart, Lanes.laneOf_assign]
  have kept {path : List String} {quark : Quark}
      (before : session.history.tree.walk (some parent) path = some quark) :
      after.tree.walk (some parent) path = some quark :=
    stamped.grows.walk clean.sound.linked stamped.sound.linked before
  constructor
  case sound => exact stamped.sound
  case placed => exact placed.trans clean.placed
  case inside => exact stamped.grows.contains clean.inside
  case allotted => exact clean.allotted.assign key rfl
  case within =>
    intro other lane held quark member
    change ∃ rest, after.tree.walk (some parent)
      ((session.lanes.assign key).1.slotName lane.slot :: rest) = some quark
    rw [slotName]
    by_cases same : other = key
    · subst same
      obtain rfl : noted = lane := Option.some.inj (own.symm.trans held)
      rcases (mem_noted quark).mp member with before | written
      · have present := Lanes.laneOf_of_mem_assign before
        obtain ⟨rest, reached⟩ := clean.within other _ present quark before
        exact ⟨rest, kept reached⟩
      · exact Tree.walk_of_names reached names quark written
    · have present := (others same).symm.trans held
      obtain ⟨rest, reached⟩ := clean.within other lane present quark member
      exact ⟨rest, kept reached⟩
  case idle =>
    intro running quark below unnoted
    have unwritten : quark ∉ entries.map Prod.fst := fun member =>
      unnoted ⟨key, noted, own, (mem_noted quark).mpr (Or.inr member)⟩
    refine clean.idle_kept stamped.sound.linked stamped.grows (stamped.closed.symm.trans running)
      (stamped.kept quark unwritten) below ?_
    rintro ⟨other, lane, held, member⟩
    by_cases same : other = key
    · subst same
      rw [← Lanes.assign_live held] at member
      exact unnoted ⟨other, noted, own, (mem_noted quark).mpr (Or.inl member)⟩
    · exact unnoted ⟨other, lane, (others same).trans held, member⟩
  case logged =>
    intro other lane held quark member
    dsimp only at member
    by_cases same : other = key
    · subst same
      obtain rfl : noted = lane := Option.some.inj (own.symm.trans held)
      rw [Function.update_self, List.mem_append] at member
      refine (mem_noted quark).mpr (member.imp_left fun before => ?_)
      obtain ⟨former, present, among⟩ := clean.former_noted before
      rwa [Lanes.assign_live present]
    · rw [Function.update_of_ne same] at member
      exact clean.logged other lane ((others same).symm.trans held) quark member

/-- Inserting a key, also in vain, keeps a session clean. -/
theorem LaneSession.Clean.insert (clean : session.Clean parent) (key : Key) (time : Time)
    (payload : List (String × Value)) : (session.insert key time payload).Clean parent := by
  unfold LaneSession.insert
  rcases session.lanes.insert_cases clean.sound key time payload with
    ⟨error, grown, refused, linked, grows, marked⟩ |
    ⟨place, entries, after, done, stamped, reached, names, marked⟩
  · simp only [refused, marked, List.append_nil]
    exact clean.refused key linked grows
  · rw [done, marked]
    rw [clean.placed] at reached
    exact clean.assigned key stamped reached names

/-- A session stays clean when all that is noted for a key is cleared and the key leaves. -/
theorem LaneSession.Clean.removed (clean : session.Clean parent) {key : Key} {time : Time}
    {lane : Lane} (held : session.lanes.laneOf key = some lane) {after : History}
    (stamped : session.history.Stamped time (lane.written.map fun quark => (quark, .null)) after) :
    LaneSession.Clean ⟨(session.lanes.drop key).release lane.slot, after, session.log⟩ parent := by
  have live {other : Key} {another : Lane} :
      ((session.lanes.drop key).release lane.slot).laneOf other = some another ↔
        other ≠ key ∧ session.lanes.laneOf other = some another := by
    rw [Lanes.laneOf_release, Lanes.laneOf_drop]
    by_cases same : other = key <;> simp [same]
  constructor
  case sound => exact stamped.sound
  case placed => exact clean.placed
  case inside => exact stamped.grows.contains clean.inside
  case allotted => exact (clean.allotted.drop held).release
  case within =>
    intro other another present quark member
    obtain ⟨rest, reached⟩ := clean.within other another (live.mp present).2 quark member
    exact ⟨rest, stamped.grows.walk clean.sound.linked stamped.sound.linked reached⟩
  case idle =>
    intro running quark below unnoted
    by_cases cleared : quark ∈ lane.written
    · exact Or.inr ⟨time, stamped.cleared cleared⟩
    · refine clean.idle_kept stamped.sound.linked stamped.grows
        (stamped.closed.symm.trans running) (stamped.kept quark (by simpa using cleared)) below ?_
      rintro ⟨other, another, present, member⟩
      by_cases same : other = key
      · subst same
        obtain rfl : lane = another := Option.some.inj (held.symm.trans present)
        exact cleared member
      · exact unnoted ⟨other, another, live.mpr ⟨same, present⟩, member⟩
  case logged =>
    intro other another present quark member
    exact clean.logged other another (live.mp present).2 quark member

/-- Removing a key, also in vain, keeps a session clean. -/
theorem LaneSession.Clean.remove (clean : session.Clean parent) (key : Key) (time : Time) :
    (session.remove key time).Clean parent := by
  unfold LaneSession.remove
  rcases session.lanes.remove_cases clean.sound key time (fun lane held => clean.contains held) with
    ⟨_, absent⟩ | ⟨error, refused⟩ | ⟨lane, after, held, done, stamped⟩
  · rw [absent]
    exact clean
  · rw [refused]
    exact clean
  · rw [done]
    exact clean.removed held stamped

/-- Lanes that were never used are clean when nothing below their parent was ever written. -/
theorem LaneSession.clean_start {history : History} (sound : history.Sound) {parent : Quark}
    (inside : history.tree.contains parent = true) (width : Nat)
    (blank : ∀ quark, history.tree.Below parent quark → ¬ history.store.Used quark) :
    (LaneSession.start history parent width : LaneSession Key).Clean parent where
  sound := sound
  placed := rfl
  inside := inside
  allotted := Lanes.allotted_empty parent width
  within := by
    intro key lane impossible
    cases impossible
  idle := fun _ quark below _ => Or.inl (blank quark below)
  logged := by
    intro key lane impossible
    cases impossible

/-- Every step keeps a session clean. -/
theorem LaneSession.Clean.step (clean : session.Clean parent) {next : LaneSession Key}
    (step : session.Step next) : next.Clean parent := by
  cases step with
  | write write spares => exact clean.write write spares
  | insert key time payload => exact clean.insert key time payload
  | remove key time => exact clean.remove key time

/-- Nothing is noted for two live keys of a clean session. -/
theorem LaneSession.Clean.exclusive (clean : session.Clean parent) {first second : Key}
    {former latter : Lane} (held : session.lanes.laneOf first = some former)
    (also : session.lanes.laneOf second = some latter) (apart : first ≠ second) :
    former.written.Disjoint latter.written := by
  intro quark member among
  obtain ⟨rest, reached⟩ := clean.within first former held quark member
  obtain ⟨others, again⟩ := clean.within second latter also quark among
  have path := ((clean.sound.linked.walk_some_iff clean.inside _ quark).mp reached).2
  have same := ((clean.sound.linked.walk_some_iff clean.inside _ quark).mp again).2
  have slots := (List.cons.inj (List.append_cancel_left (path.symm.trans same))).1
  exact apart (clean.allotted.key_unique held also (session.lanes.slotName_injective slots))

/-- A key that leaves a clean session leaves no value behind in what is logged for it. -/
theorem LaneSession.Clean.left (clean : session.Clean parent) {key : Key} {time : Time} {slot : Nat}
    (left : (session.lanes.remove session.history key time).result = .ok (some slot)) :
    ∀ quark ∈ session.log key,
      (session.lanes.remove session.history key time).state.2.valueAt quark time = .ok .null := by
  intro quark member
  rcases session.lanes.remove_cases clean.sound key time (fun lane held => clean.contains held) with
    ⟨_, absent⟩ | ⟨error, refused⟩ | ⟨lane, after, held, done, stamped⟩
  · rw [absent] at left
    cases left
  · rw [refused] at left
    cases left
  · have cleared := stamped.cleared (clean.logged key lane held quark member)
    rw [done]
    exact stamped.sound.valueAt_ongoing cleared

/-- However lanes are used on a history, with other writes in between that spare what is below their
parent: no attribute is noted for two live keys, until the history is closed no attribute below the
parent holds a value unless it is noted for a live key, and all that was written for a key is absent
from the time on at which the key leaves. -/
theorem LaneSession.exclusive_clean {history : History} (reachable : history.Reachable)
    {parent : Quark} (inside : history.tree.contains parent = true) (width : Nat)
    (blank : ∀ quark, history.tree.Below parent quark → ¬ history.store.Used quark)
    {session : LaneSession Key}
    (path : Relation.ReflTransGen LaneSession.Step (LaneSession.start history parent width)
      session) :
    (∀ first second former latter, session.lanes.laneOf first = some former →
      session.lanes.laneOf second = some latter → first ≠ second →
        former.written.Disjoint latter.written) ∧
    (session.history.closed = false → ∀ quark, session.history.tree.Below parent quark →
      (∀ key lane, session.lanes.laneOf key = some lane → quark ∉ lane.written) →
        session.history.store.Idle quark) ∧
    ∀ key time slot, (session.lanes.remove session.history key time).result = .ok (some slot) →
      ∀ quark ∈ session.log key,
        (session.lanes.remove session.history key time).state.2.valueAt quark time = .ok .null := by
  have clean : session.Clean parent := by
    induction path with
    | refl => exact LaneSession.clean_start reachable.sound inside width blank
    | tail _ step ih => exact ih.step step
  refine ⟨fun first second former latter held also apart => clean.exclusive held also apart, ?_,
    fun key time slot left => clean.left left⟩
  intro running quark below unnoted
  refine clean.idle running quark below ?_
  rintro ⟨key, lane, held, member⟩
  exact unnoted key lane held member

end Session

def diskHistory : History := History.empty.writeAll [.resolve none ["disk"]]

/-- Two keys are inserted below the disk. The first one is inserted again, in vain, since its time
is past. -/
def diskSession : LaneSession Nat :=
  (((LaneSession.start diskHistory 0 3).insert 100 10 [("status", .long 1)]).insert 200 12
    [("status", .long 2)]).insert 100 11 [("info", .long 4)]

/-- The keys 100 and 200 have one attribute each, and that of 100 is absent once this key leaves. -/
theorem LaneSession.exclusive_clean_of_disk :
    diskSession.log 100 = [2] ∧ diskSession.lanes.laneOf 200 = some ⟨1, [4]⟩ ∧
      (diskSession.lanes.remove diskSession.history 100 20).result = .ok (some 0) ∧
      (diskSession.lanes.remove diskSession.history 100 20).state.2.valueAt 2 20 = .ok .null := by
  have reachable : diskHistory.Reachable := History.reachable_writeAll [.resolve none ["disk"]]
  have inside : diskHistory.tree.contains 0 = true := by decide
  have blank : ∀ quark, diskHistory.tree.Below 0 quark → ¬ diskHistory.store.Used quark := by
    intro quark _
    have empty : diskHistory.store = Store.empty := by decide
    rw [empty]
    simp [Store.Used, Store.intervalsOf, Store.row, Store.ongoingOf, Store.empty]
  have path : Relation.ReflTransGen LaneSession.Step (LaneSession.start diskHistory 0 3)
      diskSession :=
    ((Relation.ReflTransGen.single (.insert _ 100 10 [("status", .long 1)])).tail
      (.insert _ 200 12 [("status", .long 2)])).tail (.insert _ 100 11 [("info", .long 4)])
  obtain ⟨_, _, left⟩ := LaneSession.exclusive_clean reachable inside 3 blank path
  have logged : diskSession.log 100 = [2] := by decide
  have removed : (diskSession.lanes.remove diskSession.history 100 20).result = .ok (some 0) := by
    decide
  exact ⟨logged, by decide, removed, left 100 20 0 removed 2 (by rw [logged]; simp)⟩

end Chronicle
