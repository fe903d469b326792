import Chronicle.Event
import Chronicle.Proofs.AscendingLists
import Mathlib.Data.List.Dedup
import Mathlib.Data.List.TakeWhile

/-!
The intervals that a stream of events makes of one attribute, read off the events alone: a new one
begins at every distinct modification time, and the last event before the next one gives its value.
-/

namespace Chronicle

/-- The events of a stream that are addressed to a path. -/
def addressed (separator : Char) (path : List String) (events : List Event) : List Event :=
  events.filter fun event => event.address.resolve separator = path

/-- The event begins an interval at the time. -/
def Event.begins (time : Time) (event : Event) : Bool :=
  event.operation = .modify && event.time = time

/-- The modifications of a stream. -/
def modifications (events : List Event) : List Event :=
  events.filter fun event => event.operation = .modify

/-- The distinct pairs of a path and a time of which a stream holds a modification. -/
def moments (separator : Char) (events : List Event) : List (List String × Time) :=
  ((modifications events).map fun event => (event.address.resolve separator, event.time)).dedup

/-- The distinct times of the modifications in ascending order. -/
def boundaries (events : List Event) : List Time :=
  (Ascending.sort ((modifications events).map Event.time)).dedup

/-- The value that the last event carries. -/
def lastValue (events : List Event) : Value := (events.getLast?.map Event.value).getD .null

/-- An interval before another boundary ends just before this, under the last value that came before
the first modification there. -/
def segment (quark : Quark) (events : List Event) (start next : Time) : Interval :=
  ⟨quark, start, next - 1, lastValue (events.takeWhile fun event => !event.begins next)⟩

/-- The intervals between neighbouring boundaries. -/
def innerSegments (quark : Quark) (events : List Event) : List Interval :=
  (boundaries events).zipWith (segment quark events) (boundaries events).tail

/-- All intervals of an attribute: the last one reaches up to the end, under the last value of all. -/
def segments (quark : Quark) (events : List Event) (stop : Time) : List Interval :=
  innerSegments quark events ++ ((boundaries events).getLast?.map fun start =>
    (⟨quark, start, stop, lastValue events⟩ : Interval)).toList

theorem mem_boundaries {events : List Event} {time : Time} :
    time ∈ boundaries events ↔ ∃ event ∈ events, event.begins time = true := by
  simp only [boundaries, List.mem_dedup, Ascending.mem_sort, List.mem_map, modifications,
    List.mem_filter, decide_eq_true_eq, Event.begins, Bool.and_eq_true]
  constructor
  · rintro ⟨event, ⟨member, modify⟩, rfl⟩
    exact ⟨event, member, modify, rfl⟩
  · rintro ⟨event, member, modify, rfl⟩
    exact ⟨event, ⟨member, modify⟩, rfl⟩

/-- The boundaries ascend strictly. -/
theorem boundaries_ascending (events : List Event) : (boundaries events).Pairwise (· < ·) := by
  have sorted := (Ascending.pairwise_sort ((modifications events).map Event.time)).sublist
    (List.dedup_sublist _)
  have distinct := List.nodup_dedup (Ascending.sort ((modifications events).map Event.time))
  apply (sorted.and distinct).imp
  rintro low high ⟨order, apart⟩
  exact Nat.lt_of_le_of_ne order apart

/-- The last boundary is the greatest one. -/
theorem boundaries_le_last {events : List Event} {start : Time}
    (last : (boundaries events).getLast? = some start) :
    start ∈ boundaries events ∧ ∀ time ∈ boundaries events, time ≤ start := by
  refine ⟨List.mem_of_getLast? last, fun time member => ?_⟩
  obtain ⟨earlier, split⟩ := List.getLast?_eq_some_iff.mp last
  have ascending := boundaries_ascending events
  rw [split] at ascending member
  rcases List.mem_append.mp member with before | same
  · exact Nat.le_of_lt
      ((List.pairwise_append.mp ascending).2.2 time before start (List.mem_singleton_self start))
  · exact Nat.le_of_eq (List.mem_singleton.mp same)

/-- The moments of one path are the boundaries of its own events. -/
theorem mem_moments {separator : Char} {path : List String} {time : Time} {events : List Event} :
    (path, time) ∈ moments separator events ↔
      time ∈ boundaries (addressed separator path events) := by
  simp only [mem_boundaries, moments, modifications, addressed, Event.begins, List.mem_dedup,
    List.mem_map, List.mem_filter, decide_eq_true_eq, Bool.and_eq_true, Prod.mk.injEq]
  constructor
  · rintro ⟨event, ⟨member, modify⟩, own, same⟩
    exact ⟨event, ⟨member, own⟩, modify, same⟩
  · rintro ⟨event, ⟨member, own⟩, modify, same⟩
    exact ⟨event, ⟨member, modify⟩, own, same⟩

section Append

variable {separator : Char} {events : List Event} {event : Event}

/-- A further event concerns its own path only. -/
theorem addressed_append (path : List String) :
    addressed separator path (events ++ [event]) =
      if event.address.resolve separator = path then addressed separator path events ++ [event]
      else addressed separator path events := by
  unfold addressed
  rw [List.filter_append]
  by_cases own : event.address.resolve separator = path <;> simp [own]

theorem moments_append_amend (amend : event.operation = .amend) :
    moments separator (events ++ [event]) = moments separator events := by
  simp [moments, modifications, amend]

/-- A modification counts unless its path was modified at the same time before. -/
theorem length_moments_append (modify : event.operation = .modify) :
    (moments separator (events ++ [event])).length = (moments separator events).length +
      if event.time ∈ boundaries
          (addressed separator (event.address.resolve separator) events) then 0 else 1 := by
  let pairs := (modifications events).map fun other =>
    (other.address.resolve separator, other.time)
  let pair := (event.address.resolve separator, event.time)
  -- the further pair may as well come first, since only the length of the list matters
  have front : (moments separator (events ++ [event])).Perm (pair :: pairs).dedup := by
    have split : moments separator (events ++ [event]) = (pairs ++ [pair]).dedup := by
      simp [moments, modifications, modify, pairs, pair]
    rw [split]
    exact (List.perm_append_singleton pair pairs).dedup
  have known : pair ∈ pairs ↔ event.time ∈ boundaries
      (addressed separator (event.address.resolve separator) events) := by
    rw [← mem_moments, moments, List.mem_dedup]
  rw [front.length_eq, ← if_congr known rfl rfl]
  by_cases repeated : pair ∈ pairs
  · rw [List.dedup_cons_of_mem repeated, if_pos repeated]
    rfl
  · rw [List.dedup_cons_of_notMem repeated, if_neg repeated]
    rfl

/-- An event that begins nothing new adds no boundary. -/
theorem boundaries_append_old
    (old : event.operation = .modify → event.time ∈ boundaries events) :
    boundaries (events ++ [event]) = boundaries events := by
  apply Ascending.eq_of_mem_iff (boundaries_ascending _) (boundaries_ascending _)
  intro time
  simp only [mem_boundaries, List.mem_append, List.mem_singleton]
  constructor
  · rintro ⟨other, former | rfl, begins⟩
    · exact ⟨other, former, begins⟩
    · simp only [Event.begins, Bool.and_eq_true, decide_eq_true_eq] at begins
      rw [← begins.2]
      exact mem_boundaries.mp (old begins.1)
  · rintro ⟨other, member, begins⟩
    exact ⟨other, Or.inl member, begins⟩

/-- A modification after all boundaries is the last one. -/
theorem boundaries_append_new (modify : event.operation = .modify)
    (later : ∀ time ∈ boundaries events, time < event.time) :
    boundaries (events ++ [event]) = boundaries events ++ [event.time] := by
  apply Ascending.eq_of_mem_iff (boundaries_ascending _)
  · apply List.pairwise_append.mpr ⟨boundaries_ascending _, List.pairwise_singleton _ _, ?_⟩
    intro time member other last
    rw [List.mem_singleton.mp last]
    exact later time member
  · intro time
    simp only [List.mem_append, List.mem_singleton, mem_boundaries]
    constructor
    · rintro ⟨other, former | rfl, begins⟩
      · exact Or.inl ⟨other, former, begins⟩
      · simp only [Event.begins, Bool.and_eq_true, decide_eq_true_eq] at begins
        exact Or.inr begins.2.symm
    · rintro (⟨other, member, begins⟩ | rfl)
      · exact ⟨other, Or.inl member, begins⟩
      · exact ⟨event, Or.inr rfl, by simp [Event.begins, modify]⟩

@[simp] theorem lastValue_append : lastValue (events ++ [event]) = event.value := by
  simp [lastValue]

/-- A further event does not change what came before an earlier boundary. -/
theorem segment_append {quark : Quark} {start next : Time} (known : next ∈ boundaries events) :
    segment quark (events ++ [event]) start next = segment quark events start next := by
  obtain ⟨first, member, begins⟩ := mem_boundaries.mp known
  unfold segment
  rw [List.takeWhile_append]
  have stops : (events.takeWhile fun other => !other.begins next).length ≠ events.length := by
    intro whole
    have all := List.takeWhile_eq_self_iff.mp
      ((List.takeWhile_sublist _).eq_of_length whole) first member
    simp [begins] at all
  rw [if_neg stops]

theorem zipWith_tail_append {A B : Type} (f : A → A → B) (items : List A) (item : A) :
    (items ++ [item]).zipWith f (items ++ [item]).tail =
      items.zipWith f items.tail ++ (items.getLast?.map fun last => f last item).toList := by
  induction items with
  | nil => rfl
  | cons first rest ih =>
      cases rest with
      | nil => rfl
      | cons second others => simpa using ih

/-- An event that begins nothing new leaves the inner segments as they are. -/
theorem innerSegments_append_old (quark : Quark)
    (old : event.operation = .modify → event.time ∈ boundaries events) :
    innerSegments quark (events ++ [event]) = innerSegments quark events := by
  unfold innerSegments
  rw [boundaries_append_old old]
  apply List.ext_getElem
  · simp
  · intro position _ inside
    simp only [List.getElem_zipWith]
    apply segment_append
    exact List.mem_of_mem_tail (List.getElem_mem _)

/-- A modification after all boundaries turns the last segment into an inner one. -/
theorem innerSegments_append_new (quark : Quark) (modify : event.operation = .modify)
    (later : ∀ time ∈ boundaries events, time < event.time) :
    innerSegments quark (events ++ [event]) = innerSegments quark events ++
      ((boundaries events).getLast?.map fun start =>
        (⟨quark, start, event.time - 1, lastValue events⟩ : Interval)).toList := by
  have fresh : events.takeWhile (fun other => !other.begins event.time) = events := by
    apply List.takeWhile_eq_self_iff.mpr
    intro other member
    by_contra begins
    have known : event.time ∈ boundaries events :=
      mem_boundaries.mpr ⟨other, member, by simpa using begins⟩
    exact absurd (later _ known) (Nat.lt_irrefl _)
  have last (start : Time) : segment quark (events ++ [event]) start event.time =
      ⟨quark, start, event.time - 1, lastValue events⟩ := by
    have begins : event.begins event.time = true := by simp [Event.begins, modify]
    unfold segment
    rw [List.takeWhile_append, fresh, if_pos rfl, List.takeWhile_cons_of_neg (by simp [begins]),
      List.append_nil]
  unfold innerSegments
  rw [boundaries_append_new modify later, zipWith_tail_append]
  congr 1
  · apply List.ext_getElem
    · simp
    · intro position _ inside
      simp only [List.getElem_zipWith]
      apply segment_append
      exact List.mem_of_mem_tail (List.getElem_mem _)
  · simp only [last]

end Append

end Chronicle
