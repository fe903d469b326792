import Chronicle.History.Snapshot
import Chronicle.Proofs.JoinedPaths
import Chronicle.Proofs.SoundHistories
import Mathlib.Data.List.Dedup
import Mathlib.Data.String.Basic

/-!
What a snapshot tells: one value for each path, which is that of the last created attribute with the
path. Attributes are lost exactly where several share a path.
-/

namespace Chronicle

section Entries

variable {snapshot : Snapshot} {path : String} {value : Value}

/-- An entered path takes the value, and the others keep theirs. -/
theorem Snapshot.lookup_insert (snapshot : Snapshot) (path : String) (value : Value)
    (other : String) :
    (Snapshot.insert path value snapshot).lookup other =
      if other = path then some value else snapshot.lookup other := by
  induction snapshot with
  | nil => rw [Snapshot.insert, lookup_cons_eq_if]
  | cons entry rest ih =>
      obtain ⟨first, held⟩ := entry
      rw [Snapshot.insert]
      by_cases before : path < first
      · rw [if_pos before, lookup_cons_eq_if]
      · rw [if_neg before]
        by_cases here : path = first
        · subst here
          rw [if_pos rfl, lookup_cons_eq_if, lookup_cons_eq_if]
          by_cases same : other = path <;> simp only [same, if_true, if_false]
        · rw [if_neg here, lookup_cons_eq_if, lookup_cons_eq_if, ih]
          by_cases same : other = path
          · have differs : other ≠ first := fun equal => here (same.symm.trans equal)
            rw [if_neg differs, if_pos same, if_pos same]
          · rw [if_neg same, if_neg same]

/-- The paths of a snapshot are those of its entries. -/
def Snapshot.paths (snapshot : Snapshot) : List String := snapshot.map Prod.fst

theorem Snapshot.mem_paths_insert (other : String) :
    other ∈ Snapshot.paths (Snapshot.insert path value snapshot) ↔
      other = path ∨ other ∈ Snapshot.paths snapshot := by
  induction snapshot with
  | nil => simp [Snapshot.insert, Snapshot.paths]
  | cons entry rest ih =>
      simp only [Snapshot.paths, List.mem_map] at ih
      rw [Snapshot.insert]
      split_ifs with before here
      · simp [Snapshot.paths]
      · simp [Snapshot.paths, here]
      · simp only [Snapshot.paths, List.map_cons, List.mem_cons, List.mem_map, ih]
        exact or_left_comm

/-- Entering a path keeps the paths in ascending order. -/
theorem Snapshot.ascends_insert (ascends : (Snapshot.paths snapshot).Pairwise (· < ·)) :
    (Snapshot.paths (Snapshot.insert path value snapshot)).Pairwise (· < ·) := by
  induction snapshot with
  | nil => simp [Snapshot.insert, Snapshot.paths]
  | cons entry rest ih =>
      obtain ⟨first, held⟩ := entry
      obtain ⟨least, later⟩ := List.pairwise_cons.mp ascends
      rw [Snapshot.insert]
      split_ifs with before here
      · refine List.pairwise_cons.mpr ⟨?_, ascends⟩
        intro other member
        rcases List.mem_cons.mp member with rfl | among
        · exact before
        · exact before.trans (least other among)
      · subst here
        exact ascends
      · refine List.pairwise_cons.mpr ⟨?_, ih later⟩
        intro other member
        rcases (Snapshot.mem_paths_insert other).mp member with rfl | among
        · exact lt_of_le_of_ne (not_lt.mp before) (Ne.symm here)
        · exact least other among

variable (entries : List (String × Value))

theorem Snapshot.ofList_append_singleton (path : String) (value : Value) :
    Snapshot.ofList (entries ++ [(path, value)]) =
      Snapshot.insert path value (Snapshot.ofList entries) := by
  rw [Snapshot.ofList, List.foldl_append]
  rfl

/-- Of several values for one path the last is found. -/
theorem Snapshot.lookup_ofList (path : String) :
    (Snapshot.ofList entries).lookup path = entries.reverse.lookup path := by
  induction entries using List.reverseRecOn with
  | nil => rfl
  | append_singleton former entry ih =>
      obtain ⟨last, value⟩ := entry
      rw [Snapshot.ofList_append_singleton, Snapshot.lookup_insert, ih, List.reverse_append]
      exact (lookup_cons_eq_if last path value former.reverse).symm

/-- A snapshot has every path of the listed values once. -/
theorem Snapshot.paths_ofList :
    (Snapshot.paths (Snapshot.ofList entries)).Pairwise (· < ·) ∧
      ∀ path, path ∈ Snapshot.paths (Snapshot.ofList entries) ↔ path ∈ entries.map Prod.fst := by
  induction entries using List.reverseRecOn with
  | nil => exact ⟨List.Pairwise.nil, fun _ => Iff.rfl⟩
  | append_singleton former entry ih =>
      obtain ⟨last, value⟩ := entry
      rw [Snapshot.ofList_append_singleton]
      refine ⟨Snapshot.ascends_insert ih.1, fun path => ?_⟩
      rw [Snapshot.mem_paths_insert, ih.2, List.map_append, List.mem_append]
      simp [or_comm]

/-- A snapshot has as many entries as there are different paths. -/
theorem Snapshot.length_ofList :
    (Snapshot.ofList entries).length = (entries.map Prod.fst).dedup.length := by
  obtain ⟨ascends, members⟩ := Snapshot.paths_ofList entries
  have distinct : (Snapshot.paths (Snapshot.ofList entries)).Nodup := ascends.imp ne_of_lt
  have same : (Snapshot.paths (Snapshot.ofList entries)).Perm (entries.map Prod.fst).dedup :=
    (List.perm_ext_iff_of_nodup distinct (List.nodup_dedup _)).mpr fun path => by
      rw [members, List.mem_dedup]
  rw [← same.length_eq, Snapshot.paths, List.length_map]

/-- No value is lost exactly if no path is listed twice. -/
theorem Snapshot.length_ofList_eq_iff :
    (Snapshot.ofList entries).length = entries.length ↔ (entries.map Prod.fst).Nodup := by
  rw [Snapshot.length_ofList, ← List.dedup_eq_self]
  constructor
  · intro same
    exact (List.dedup_sublist _).eq_of_length (by rw [same, List.length_map])
  · intro same
    rw [same, List.length_map]

/-- In a list by number, the last entry for a path is that of the greatest number with the path. -/
theorem lookup_reverse_range {joined : Nat → String} {held : Nat → Value} (path : String)
    (value : Value) (count : Nat) :
    ((List.range count).map fun number => (joined number, held number)).reverse.lookup path =
        some value ↔
      ∃ number, number < count ∧ joined number = path ∧
        (∀ other, other < count → joined other = path → other ≤ number) ∧
        held number = value := by
  induction count with
  | zero => simp
  | succ count ih =>
      rw [List.range_succ, List.map_append, List.reverse_append, List.map_singleton,
        List.reverse_singleton, List.singleton_append, lookup_cons_eq_if]
      by_cases same : path = joined count
      · rw [if_pos same, Option.some.injEq]
        constructor
        · intro found
          exact ⟨count, Nat.lt_succ_self count, same.symm,
            fun other below _ => Nat.le_of_lt_succ below, found⟩
        · rintro ⟨number, below, _, last, found⟩
          have above := last count (Nat.lt_succ_self count) same.symm
          rwa [le_antisymm (Nat.le_of_lt_succ below) above] at found
      · rw [if_neg same, ih]
        have lower {number : Nat} (below : number < count + 1) (named : joined number = path) :
            number < count := by
          refine lt_of_le_of_ne (Nat.le_of_lt_succ below) ?_
          rintro rfl
          exact same named.symm
        constructor
        · rintro ⟨number, below, named, last, found⟩
          exact ⟨number, below.trans (Nat.lt_succ_self count), named,
            fun other under again => last other (lower under again) again, found⟩
        · rintro ⟨number, below, named, last, found⟩
          exact ⟨number, lower below named, named,
            fun other under again => last other (under.trans (Nat.lt_succ_self count)) again,
            found⟩

end Entries

variable {history : History} {separator : Char} {time : Time}

/-- The attribute is the last created one with the path. -/
structure Tree.Latest (tree : Tree) (separator : Char) (path : String) (quark : Quark) : Prop where
  found : tree.pathOf quark separator = some path
  last : ∀ other, tree.pathOf other separator = some path → other ≤ quark

/-- A tree keeps its paths apart when no two attributes are joined to one text. -/
def Tree.Apart (tree : Tree) (separator : Char) : Prop :=
  ∀ first second path, tree.pathOf first separator = some path →
    tree.pathOf second separator = some path → first = second

/-- A tree is spelled when the segments of all its paths are whole. -/
def Tree.Spelled (tree : Tree) (separator : Char) : Prop :=
  ∀ quark, tree.contains quark = true →
    ∀ segment ∈ tree.segmentsOf quark, Path.Whole separator segment

theorem Tree.pathOf_eq_some {tree : Tree} {quark : Quark} {path : String} :
    tree.pathOf quark separator = some path ↔
      tree.contains quark = true ∧ Path.join (tree.segmentsOf quark) separator = path := by
  unfold Tree.pathOf
  split_ifs with inside <;> simp [inside]

/-- A spelled tree keeps its paths apart. -/
theorem Tree.Linked.apart {tree : Tree} (linked : tree.Linked) (spelled : tree.Spelled separator) :
    tree.Apart separator := by
  intro first second path former latter
  obtain ⟨insideFirst, rfl⟩ := Tree.pathOf_eq_some.mp former
  obtain ⟨insideSecond, same⟩ := Tree.pathOf_eq_some.mp latter
  have segments : tree.segmentsOf second = tree.segmentsOf first :=
    Path.join_injective (spelled second insideSecond) (spelled first insideFirst) same
  exact linked.eq_of_segmentsOf insideFirst insideSecond segments.symm

/-- The listed states are one path and value for each attribute. -/
theorem History.statesAt_eq (history : History) (separator : Char) (time : Time) :
    history.statesAt separator time = history.tree.quarks.map fun quark =>
      (Path.join (history.tree.segmentsOf quark) separator, history.store.valueAt quark time) := by
  rw [History.statesAt, ← List.filterMap_eq_map]
  apply List.filterMap_congr
  intro quark member
  have inside : history.tree.contains quark = true := by
    simpa [Tree.quarks, Tree.contains] using member
  simp [Tree.pathOf, inside]

/-- A snapshot gives for each path the value of the last created attribute with the path. -/
theorem History.lookup_snapshot (path : String) (value : Value) :
    (history.snapshot separator time).lookup path = some value ↔
      ∃ quark, history.tree.Latest separator path quark ∧
        history.valueAt quark time = .ok value := by
  rw [History.snapshot, Snapshot.lookup_ofList, History.statesAt_eq, Tree.quarks,
    lookup_reverse_range]
  have inside (quark : Quark) : history.tree.contains quark = true ↔
      quark < history.tree.nodes.size := by simp [Tree.contains]
  constructor
  · rintro ⟨quark, below, found, last, held⟩
    refine ⟨quark, ⟨Tree.pathOf_eq_some.mpr ⟨(inside quark).mpr below, found⟩, ?_⟩, ?_⟩
    · intro other joined
      obtain ⟨present, same⟩ := Tree.pathOf_eq_some.mp joined
      exact last other ((inside other).mp present) same
    · rw [History.valueAt, if_pos ((inside quark).mpr below), held]
  · rintro ⟨quark, latest, held⟩
    obtain ⟨present, found⟩ := Tree.pathOf_eq_some.mp latest.found
    rw [History.valueAt, if_pos present] at held
    refine ⟨quark, (inside quark).mp present, found, ?_, Except.ok.inj held⟩
    intro other below joined
    exact latest.last other (Tree.pathOf_eq_some.mpr ⟨(inside other).mpr below, joined⟩)

/-- A snapshot has an entry for every attribute exactly if all paths are kept apart. -/
theorem History.length_snapshot_eq_iff :
    (history.snapshot separator time).length = history.tree.size ↔
      history.tree.Apart separator := by
  have count : (history.statesAt separator time).length = history.tree.size := by
    rw [History.statesAt_eq, List.length_map, Tree.quarks, List.length_range, Tree.size]
  rw [History.snapshot, ← count, Snapshot.length_ofList_eq_iff, History.statesAt_eq, List.map_map,
    Tree.quarks, List.nodup_map_iff_inj_on List.nodup_range]
  simp only [List.mem_range, Function.comp_apply, Tree.Apart, Tree.pathOf_eq_some, Tree.contains,
    decide_eq_true_eq]
  constructor
  · rintro apart first second path ⟨insideFirst, rfl⟩ ⟨insideSecond, same⟩
    exact apart first insideFirst second insideSecond same.symm
  · intro apart first insideFirst second insideSecond same
    exact apart first second _ ⟨insideFirst, rfl⟩ ⟨insideSecond, same.symm⟩

/-- The snapshot of a reachable history gives for each path the value of the last created attribute
with the path. It has an entry for every attribute exactly if no two attributes share a path, and
then every attribute is found with its own value. Whole segments are enough for this. -/
theorem History.snapshot_entries {history : History} (reachable : history.Reachable)
    (separator : Char) (time : Time) :
    (∀ path value, (history.snapshot separator time).lookup path = some value ↔
      ∃ quark, history.tree.Latest separator path quark ∧
        history.valueAt quark time = .ok value) ∧
    ((history.snapshot separator time).length = history.tree.size ↔
      history.tree.Apart separator) ∧
    (history.tree.Apart separator → ∀ quark path, history.tree.pathOf quark separator = some path →
      (history.snapshot separator time).lookup path = (history.valueAt quark time).toOption) ∧
    (history.tree.Spelled separator → history.tree.Apart separator) := by
  refine ⟨fun path value => History.lookup_snapshot path value, History.length_snapshot_eq_iff, ?_,
    reachable.sound.linked.apart⟩
  intro apart quark path found
  have inside := (Tree.pathOf_eq_some.mp found).1
  have held : history.valueAt quark time = .ok (history.store.valueAt quark time) := by
    rw [History.valueAt, if_pos inside]
  rw [held]
  exact (History.lookup_snapshot path _).mpr
    ⟨quark, ⟨found, fun other same => le_of_eq (apart other quark path same found)⟩, held⟩

/-- One attribute is named by a text with a separator, and the other has this text as its path. -/
def sharedWrites : List Write :=
  [.resolve none ["a/b"], .resolve none ["a", "b"], .modify 5 0 (.int 1), .modify 5 2 (.int 2)]

/-- Two attributes that share a path have one entry, so the snapshot of three attributes has two. -/
theorem History.snapshot_of_shared_path :
    let history := History.empty.writeAll sharedWrites
    history.Reachable ∧ (history.snapshot '/' 5).lookup "a/b" = some (.int 2) ∧
      (history.snapshot '/' 5).length ≠ history.tree.size := by
  have reachable := History.reachable_writeAll sharedWrites
  obtain ⟨found, complete, _, _⟩ := History.snapshot_entries reachable '/' 5
  refine ⟨reachable, ?_, fun same => ?_⟩
  · refine (found "a/b" (.int 2)).mpr ⟨2, ⟨by decide, ?_⟩, by decide⟩
    intro other joined
    have inside := (Tree.pathOf_eq_some.mp joined).1
    have three : (History.empty.writeAll sharedWrites).tree.nodes.size = 3 := by decide
    rw [Tree.contains, decide_eq_true_eq, three] at inside
    exact Nat.le_of_lt_succ inside
  · have equal := complete.mp same 0 2 "a/b" (by decide) (by decide)
    cases equal

/-- The value of the first of two attributes with one path is not in the snapshot, where that of the
second one stands under this path. -/
theorem History.snapshot_drops_value :
    let history := History.empty.writeAll sharedWrites
    history.Reachable ∧ history.tree.size = 3 ∧ (history.snapshot '/' 5).length = 2 ∧
      history.tree.pathOf 0 '/' = some "a/b" ∧ history.valueAt 0 5 = .ok (.int 1) ∧
      (history.snapshot '/' 5).lookup "a/b" = some (.int 2) :=
  ⟨History.reachable_writeAll sharedWrites, by decide, by decide,
    by decide, by decide, by decide⟩

end Chronicle
