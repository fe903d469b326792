import Chronicle.Proofs.StoreWrites

/-!
Closing every ongoing interval of a store at one time.
-/

namespace Chronicle

/-- Shutting a list of ongoing intervals ends each of them at the given time. -/
def Store.shutAll (store : Store) (stop : Time) : List (Quark × Ongoing) → Store
  | [] => store
  | (quark, ongoing) :: rest => (store.shut (ongoing.close quark stop)).shutAll stop rest

/-- In the sealed store nothing is ongoing. -/
def Store.sealed (store : Store) (stop : Time) : Store := store.shutAll stop store.allOngoing

/-- The list of ongoing intervals agrees with the ongoing table. -/
theorem Store.mem_allOngoing {store : Store} {quark : Quark} {ongoing : Ongoing} :
    (quark, ongoing) ∈ store.allOngoing ↔ store.ongoingOf quark = some ongoing := by
  simp only [Store.allOngoing, Store.ongoingOf, List.mem_filterMap, Option.map_eq_some_iff,
    List.mem_zipIdx_iff_getElem?, Prod.mk.injEq, Option.join_eq_some_iff]
  constructor
  · rintro ⟨⟨entry, position⟩, found, held, rfl, rfl, rfl⟩
    simpa using found
  · intro found
    exact ⟨(some ongoing, quark), by simpa using found, ongoing, rfl, rfl, rfl⟩

/-- The ongoing intervals are listed in ascending order of their quarks. -/
theorem Store.allOngoing_ascending (store : Store) :
    store.allOngoing.Pairwise fun first second => first.1 < second.1 := by
  have positions : store.ongoing.toList.zipIdx.Pairwise
      fun first second => first.2 < second.2 := by
    apply List.pairwise_map.mp
    rw [List.zipIdx_map_snd]
    exact List.pairwise_lt_range'
  apply List.Pairwise.filterMap _ _ positions
  intro first second earlier former formerHeld latter latterHeld
  obtain ⟨_, _, rfl⟩ := Option.map_eq_some_iff.mp formerHeld
  obtain ⟨_, _, rfl⟩ := Option.map_eq_some_iff.mp latterHeld
  exact earlier

theorem Store.allOngoing_nodup (store : Store) : (store.allOngoing.map Prod.fst).Nodup :=
  List.pairwise_map.mpr (store.allOngoing_ascending.imp fun earlier => Nat.ne_of_lt earlier)

/-- The list of ongoing intervals has at most one entry for each quark. -/
theorem Store.filter_allOngoing (store : Store) (quark : Quark) :
    store.allOngoing.filter (fun entry => entry.1 = quark) =
      ((store.ongoingOf quark).map fun ongoing => (quark, ongoing)).toList := by
  have perm : (store.allOngoing.filter fun entry => entry.1 = quark).Perm
      ((store.ongoingOf quark).map fun ongoing => (quark, ongoing)).toList := by
    apply (List.perm_ext_iff_of_nodup _ _).mpr
    · rintro ⟨other, ongoing⟩
      simp only [List.mem_filter, Store.mem_allOngoing, decide_eq_true_eq, Option.mem_toList,
        Option.map_eq_some_iff, Prod.mk.injEq]
      constructor
      · rintro ⟨held, rfl⟩
        exact ⟨ongoing, held, rfl, rfl⟩
      · rintro ⟨_, held, rfl, rfl⟩
        exact ⟨held, rfl⟩
    · exact (List.Nodup.of_map _ store.allOngoing_nodup).filter _
    · cases store.ongoingOf quark <;> simp
  apply perm.eq_of_pairwise _ (store.allOngoing_ascending.filter _)
  · cases store.ongoingOf quark <;> simp
  · intro first second _ _ before after
    exact absurd after (Nat.lt_asymm before)

section Count

variable {store : Store}

theorem Store.mem_map_allOngoing {quark : Quark} :
    quark ∈ store.allOngoing.map Prod.fst ↔ (store.ongoingOf quark).isSome = true := by
  simp only [List.mem_map, Prod.exists, Store.mem_allOngoing, exists_and_right, exists_eq_right,
    Option.isSome_iff_exists]

/-- Stores where the same quarks are ongoing list equally many of them. -/
theorem Store.length_allOngoing_congr {other : Store}
    (same : ∀ quark, (other.ongoingOf quark).isSome = (store.ongoingOf quark).isSome) :
    other.allOngoing.length = store.allOngoing.length := by
  have perm : (other.allOngoing.map Prod.fst).Perm (store.allOngoing.map Prod.fst) := by
    apply (List.perm_ext_iff_of_nodup other.allOngoing_nodup store.allOngoing_nodup).mpr
    intro quark
    rw [Store.mem_map_allOngoing, Store.mem_map_allOngoing, same]
  simpa using perm.length_eq

/-- Recording makes at most one more quark ongoing. -/
theorem Store.length_allOngoing_recorded (level : store.Level) (quark : Quark) (time : Time)
    (value : Value) :
    (store.recorded quark time value).allOngoing.length =
      store.allOngoing.length + if (store.ongoingOf quark).isSome then 0 else 1 := by
  have state (other : Quark) : (store.recorded quark time value).ongoingOf other = _ :=
    store.ongoingOf_recorded level other
  by_cases held : (store.ongoingOf quark).isSome = true
  · rw [if_pos held]
    apply Store.length_allOngoing_congr
    intro other
    rw [state]
    by_cases own : other = quark <;> simp [own, held]
  · have perm : ((store.recorded quark time value).allOngoing.map Prod.fst).Perm
        (quark :: store.allOngoing.map Prod.fst) := by
      apply (List.perm_ext_iff_of_nodup (Store.allOngoing_nodup _) _).mpr
      · intro other
        rw [List.mem_cons, Store.mem_map_allOngoing, Store.mem_map_allOngoing, state]
        by_cases own : other = quark <;> simp [own]
      · apply List.nodup_cons.mpr ⟨_, store.allOngoing_nodup⟩
        rwa [Store.mem_map_allOngoing]
    rw [if_neg held]
    simpa using perm.length_eq

end Count

section ShutAll

variable {stop : Time} {entries : List (Quark × Ongoing)}

/-- Closing a list of ongoing intervals succeeds when each of them can end at the time. -/
theorem Store.closeAll_done {store : Store} (distinct : (entries.map Prod.fst).Nodup)
    (level : store.Level)
    (held : ∀ entry ∈ entries, store.ongoingOf entry.1 = some entry.2)
    (current : ∀ entry ∈ entries, store.Current entry.1 stop) :
    store.closeAll stop entries = .done () (store.shutAll stop entries) := by
  induction entries generalizing store with
  | nil => rfl
  | cons entry rest ih =>
      obtain ⟨quark, ongoing⟩ := entry
      have own := held (quark, ongoing) List.mem_cons_self
      have ready := current (quark, ongoing) List.mem_cons_self
      have inside := level.inside own
      simp only [List.map_cons, List.nodup_cons, List.mem_map, not_exists, not_and] at distinct
      have apart (other : Quark × Ongoing) (member : other ∈ rest) : other.1 ≠ quark :=
        distinct.1 other member
      rw [Store.closeAll, store.close_done own
        (store.closeFault_eq_none (ready.started ongoing own) (ready.committed ongoing own)),
        Attempt.andThen_done, Store.shutAll]
      -- the quarks that remain do not see the interval that was shut
      have keptOngoing (other : Quark × Ongoing) (member : other ∈ rest) :
          (store.shut (ongoing.close quark stop)).ongoingOf other.1 = store.ongoingOf other.1 := by
        rw [Store.ongoingOf_shut]
        exact if_neg (apart other member)
      have keptIntervals (other : Quark × Ongoing) (member : other ∈ rest) :
          (store.shut (ongoing.close quark stop)).intervalsOf other.1 =
            store.intervalsOf other.1 := by
        rw [Store.intervalsOf_shut inside]
        exact if_neg (apart other member)
      apply ih distinct.2 (store.level_shut level)
      · intro other member
        rw [keptOngoing other member]
        exact held other (List.mem_cons_of_mem _ member)
      · intro other member
        have before := current other (List.mem_cons_of_mem _ member)
        constructor
        · rw [keptOngoing other member, keptIntervals other member]
          exact before.idle
        · rw [keptOngoing other member]
          exact before.started
        · rw [keptOngoing other member, keptIntervals other member]
          exact before.committed

theorem Store.level_shutAll {store : Store} (level : store.Level) :
    (store.shutAll stop entries).Level := by
  induction entries generalizing store with
  | nil => exact level
  | cons entry rest ih => exact ih (store.level_shut level)

theorem Store.ongoingOf_shutAll {store : Store} (other : Quark) :
    (store.shutAll stop entries).ongoingOf other =
      if other ∈ entries.map Prod.fst then none else store.ongoingOf other := by
  induction entries generalizing store with
  | nil => simp [Store.shutAll]
  | cons entry rest ih =>
      rw [Store.shutAll, ih, Store.ongoingOf_shut]
      by_cases here : other = entry.1 <;> by_cases later : other ∈ rest.map Prod.fst <;>
        simp [here, later, Ongoing.close]

/-- Each quark gets the intervals that are listed for it. -/
theorem Store.intervalsOf_shutAll {store : Store}
    (inside : ∀ entry ∈ entries, entry.1 < store.closed.size) (other : Quark) :
    (store.shutAll stop entries).intervalsOf other = store.intervalsOf other ++
      (entries.filter fun entry => entry.1 = other).map fun entry => entry.2.close other stop := by
  induction entries generalizing store with
  | nil => simp [Store.shutAll]
  | cons entry rest ih =>
      obtain ⟨quark, ongoing⟩ := entry
      have own : quark < store.closed.size := inside (quark, ongoing) List.mem_cons_self
      have later (entry : Quark × Ongoing) (member : entry ∈ rest) :
          entry.1 < (store.shut (ongoing.close quark stop)).closed.size := by
        simpa [Store.shut] using inside entry (List.mem_cons_of_mem _ member)
      rw [Store.shutAll, ih later, Store.intervalsOf_shut own]
      by_cases equal : other = quark
      · subst other
        simp [Ongoing.close]
      · simp [equal, Ne.symm equal, Ongoing.close]

theorem Store.closedCount_shutAll {store : Store} :
    (store.shutAll stop entries).closedCount = store.closedCount + entries.length := by
  induction entries generalizing store with
  | nil => rfl
  | cons entry rest ih =>
      rw [Store.shutAll, ih, List.length_cons]
      simp only [Store.shut]
      omega

theorem Store.length_allIntervals_shutAll {store : Store}
    (inside : ∀ entry ∈ entries, entry.1 < store.closed.size) :
    (store.shutAll stop entries).allIntervals.length =
      store.allIntervals.length + entries.length := by
  induction entries generalizing store with
  | nil => rfl
  | cons entry rest ih =>
      obtain ⟨quark, ongoing⟩ := entry
      have own : (ongoing.close quark stop).quark < store.closed.size :=
        inside (quark, ongoing) List.mem_cons_self
      have later (entry : Quark × Ongoing) (member : entry ∈ rest) :
          entry.1 < (store.shut (ongoing.close quark stop)).closed.size := by
        simpa [Store.shut] using inside entry (List.mem_cons_of_mem _ member)
      rw [Store.shutAll, ih later, List.length_cons, store.length_allIntervals_shut own]
      omega

end ShutAll

section Sealed

variable {store : Store} {stop : Time}

theorem Store.allOngoing_inside (level : store.Level) :
    ∀ entry ∈ store.allOngoing, entry.1 < store.closed.size := by
  rintro ⟨quark, ongoing⟩ member
  exact level.inside (store.mem_allOngoing.mp member)

/-- Closing every ongoing interval succeeds when all quarks are current. -/
theorem Store.closeAll_sealed (level : store.Level)
    (current : ∀ quark, store.Current quark stop) :
    store.closeAll stop store.allOngoing = .done () (store.sealed stop) :=
  store.closeAll_done store.allOngoing_nodup level
    (fun _ member => store.mem_allOngoing.mp member) (fun entry _ => current entry.1)

theorem Store.level_sealed (level : store.Level) : (store.sealed stop).Level :=
  store.level_shutAll level

theorem Store.ongoingOf_sealed (quark : Quark) : (store.sealed stop).ongoingOf quark = none := by
  rw [Store.sealed, Store.ongoingOf_shutAll]
  cases held : store.ongoingOf quark with
  | none => simp
  | some ongoing =>
      exact if_pos (List.mem_map.mpr ⟨(quark, ongoing), store.mem_allOngoing.mpr held, rfl⟩)

/-- A sealed quark has its whole timeline as closed intervals. -/
theorem Store.intervalsOf_sealed (level : store.Level) (quark : Quark) :
    (store.sealed stop).intervalsOf quark = store.timeline quark stop := by
  rw [Store.sealed, Store.intervalsOf_shutAll (store.allOngoing_inside level),
    Store.filter_allOngoing, Store.timeline]
  cases store.ongoingOf quark <;> rfl

end Sealed

end Chronicle
