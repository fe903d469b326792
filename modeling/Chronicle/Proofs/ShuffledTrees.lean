import Chronicle.Proofs.TreeLinks
import Mathlib.Data.List.Nodup
import Mathlib.Data.List.Perm.Basic

/-!
The tables of a tree may list their names in any order: no call and no question tells two trees
apart that only differ in this, and none does after further calls. In a reachable tree every name has
one entry in its table.
-/

namespace Chronicle

/-- A call resolves a child by its name, or a whole path. -/
inductive TreeCall where
  | child (place : Option Quark) (name : String)
  | path (place : Option Quark) (names : List String)

def Tree.call (tree : Tree) : TreeCall → Attempt Tree Quark
  | .child place name => tree.resolveChild place name
  | .path place names => tree.resolve place names

/-- The answers to one call after another, whether refused or not, and the tree that they leave. -/
def Tree.callAll (tree : Tree) : List TreeCall → List (Except HistoryError Quark) × Tree
  | [] => ([], tree)
  | call :: rest =>
      let attempt := tree.call call
      let others := attempt.state.callAll rest
      (attempt.result :: others.1, others.2)

/-- Another tree with the same attributes, which lists the names of its tables in another order. -/
structure Tree.Shuffled (tree other : Tree) : Prop where
  label : ∀ quark, other.label quark = tree.label quark
  order : ∀ place, (other.branches place).order = (tree.branches place).order
  named : ∀ place, (other.branches place).named.Perm (tree.branches place).named

/-- A reachable tree comes from the empty one by calls. In between its tables may be shuffled. -/
inductive Tree.Reachable : Tree → Prop where
  | empty : Reachable .empty
  | call {tree : Tree} (reachable : tree.Reachable) (call : TreeCall) :
      Reachable (tree.call call).state
  | shuffled {tree other : Tree} (reachable : tree.Reachable) (same : tree.Shuffled other) :
      Reachable other

/-- All questions have the same answers in two trees. -/
structure Tree.Alike (tree other : Tree) : Prop where
  size : other.size = tree.size
  contains : ∀ quark, other.contains quark = tree.contains quark
  quarks : other.quarks = tree.quarks
  roots : other.roots = tree.roots
  childrenOf : ∀ quark, other.childrenOf quark = tree.childrenOf quark
  nameOf : ∀ quark, other.nameOf quark = tree.nameOf quark
  parentOf : ∀ quark, other.parentOf quark = tree.parentOf quark
  child : ∀ place name, other.child place name = tree.child place name
  find : ∀ place path, other.find place path = tree.find place path
  segmentsOf : ∀ quark, other.segmentsOf quark = tree.segmentsOf quark
  pathOf : ∀ quark separator, other.pathOf quark separator = tree.pathOf quark separator
  subAttributes : ∀ quark recursive,
    other.subAttributes quark recursive = tree.subAttributes quark recursive
  matching : ∀ place pattern, other.matching place pattern = tree.matching place pattern

section Calls

variable {tree : Tree} {place : Option Quark} {name : String}

theorem Tree.size_addChild : (tree.addChild place name).size = tree.size + 1 := by
  cases place <;> simp [Tree.addChild, Tree.size]

/-- Resolving a child leaves the tree, or adds a child whose name is free at a place of the tree. -/
theorem Tree.resolveChild_state (tree : Tree) (place : Option Quark) (name : String) :
    (tree.resolveChild place name).state = tree ∨
      (tree.HasPlace place ∧ tree.child place name = none ∧
        (tree.resolveChild place name).state = tree.addChild place name) := by
  unfold Tree.resolveChild
  cases found : tree.child place name with
  | some quark => exact Or.inl rfl
  | none =>
      cases place with
      | none => exact Or.inr ⟨tree.hasPlace_none, rfl, rfl⟩
      | some parent =>
          by_cases inside : tree.contains parent = true
          · exact Or.inr ⟨Tree.hasPlace_some inside, rfl, by simp [inside]⟩
          · exact Or.inl (by simp [inside])

/-- What every new child keeps is kept by every call. -/
theorem Tree.call_keeps {Keeps : Tree → Prop}
    (step : ∀ tree place name, Keeps tree → tree.HasPlace place → tree.child place name = none →
      Keeps (tree.addChild place name)) (kept : Keeps tree) (call : TreeCall) :
    Keeps (tree.call call).state := by
  have child (tree : Tree) (kept : Keeps tree) (place : Option Quark) (name : String) :
      Keeps (tree.resolveChild place name).state := by
    rcases tree.resolveChild_state place name with same | ⟨inside, free, added⟩
    · rwa [same]
    · rw [added]
      exact step tree place name kept inside free
  cases call with
  | child place name => exact child tree kept place name
  | path place names =>
      -- A path is resolved child by child, up to one that is refused.
      rw [Tree.call]
      induction names generalizing tree place with
      | nil => cases place <;> exact kept
      | cons name rest ih =>
          have next := child tree kept place name
          rw [Tree.resolve, Attempt.andThen]
          cases (tree.resolveChild place name).result with
          | error error => exact next
          | ok quark => exact ih next (some quark)

end Calls

/-- The names of a table have one entry each, and all numbers in the branches are below a bound. -/
structure Branches.Tabled (branches : Branches) (bound : Nat) : Prop where
  distinct : (branches.named.map Prod.fst).Nodup
  named : ∀ entry ∈ branches.named, entry.2 < bound
  order : ∀ quark ∈ branches.order, quark < bound

/-- A tree is linked, and its tables have one entry for each name, which leads to an attribute. -/
structure Tree.Tabled (tree : Tree) : Prop where
  linked : tree.Linked
  branches : ∀ place, (tree.branches place).Tabled tree.size

section Tabled

variable {tree other : Tree} {name : String}

theorem Branches.tabled_empty (bound : Nat) : Branches.empty.Tabled bound where
  distinct := List.nodup_nil
  named := by simp [Branches.empty]
  order := by simp [Branches.empty]

theorem Branches.Tabled.mono {branches : Branches} {bound above : Nat}
    (tabled : branches.Tabled bound) (le : bound ≤ above) : branches.Tabled above where
  distinct := tabled.distinct
  named entry member := Nat.lt_of_lt_of_le (tabled.named entry member) le
  order quark member := Nat.lt_of_lt_of_le (tabled.order quark member) le

/-- A child with a free name may take the next number. -/
theorem Branches.Tabled.add {branches : Branches} {bound : Nat} (tabled : branches.Tabled bound)
    (free : branches.find name = none) : (branches.add name bound).Tabled (bound + 1) where
  distinct := by
    have fresh := not_mem_of_lookup_eq_none free
    rw [Branches.add, List.map_append, List.nodup_append]
    refine ⟨tabled.distinct, List.nodup_singleton name, ?_⟩
    rintro other member _ last rfl
    rw [List.mem_singleton.mp last] at member
    exact fresh member
  named := by
    intro entry member
    rcases List.mem_append.mp member with former | last
    · exact Nat.lt_succ_of_lt (tabled.named entry former)
    · rw [List.mem_singleton.mp last]
      exact Nat.lt_succ_self bound
  order := by
    intro quark member
    rcases List.mem_append.mp member with former | last
    · exact Nat.lt_succ_of_lt (tabled.order quark former)
    · rw [List.mem_singleton.mp last]
      exact Nat.lt_succ_self bound

theorem Tree.tabled_empty : Tree.empty.Tabled where
  linked := Tree.linked_empty
  branches place := by
    cases place <;> exact Branches.tabled_empty _

/-- A new child keeps the tables in order. -/
theorem Tree.Tabled.addChild (tabled : tree.Tabled) {place : Option Quark}
    (inside : tree.HasPlace place) (free : tree.child place name = none) :
    (tree.addChild place name).Tabled where
  linked := Tree.linked_addChild tabled.linked inside free
  branches other := by
    rw [Tree.branches_addChild inside, Tree.size_addChild]
    by_cases here : other = place
    · rw [if_pos here]
      exact (tabled.branches place).add free
    · rw [if_neg here]
      exact (tabled.branches other).mono (Nat.le_succ _)

/-- Where every name has one entry, the table finds exactly its entries. -/
theorem lookup_eq_some_iff_mem {Name Held : Type} [DecidableEq Name] {entries : List (Name × Held)}
    (distinct : (entries.map Prod.fst).Nodup) (name : Name) (held : Held) :
    entries.lookup name = some held ↔ (name, held) ∈ entries := by
  induction entries with
  | nil => simp
  | cons entry rest ih =>
      obtain ⟨first, kept⟩ := entry
      obtain ⟨fresh, others⟩ := List.nodup_cons.mp distinct
      rw [lookup_cons_eq_if, List.mem_cons, Prod.mk.injEq]
      by_cases same : name = first
      · subst same
        have absent : (name, held) ∉ rest := by
          intro member
          exact fresh (List.mem_map.mpr ⟨(name, held), member, rfl⟩)
        simp [absent, eq_comm]
      · simp [same, ih others]

/-- Shuffled tables find the same children. -/
theorem Tree.Shuffled.child (same : tree.Shuffled other) (tabled : tree.Tabled)
    (place : Option Quark) (name : String) : other.child place name = tree.child place name := by
  have distinct := (tabled.branches place).distinct
  have shuffled := same.named place
  apply Option.ext
  intro quark
  rw [Tree.child, Tree.child, Branches.find, Branches.find, lookup_eq_some_iff_mem distinct,
    lookup_eq_some_iff_mem ((shuffled.map Prod.fst).nodup_iff.mpr distinct), shuffled.mem_iff]

theorem Tree.Shuffled.size (same : tree.Shuffled other) : other.size = tree.size := by
  have inside (quark : Nat) : quark < other.size ↔ quark < tree.size := by
    have contained : other.contains quark = true ↔ tree.contains quark = true := by
      rw [Tree.contains_iff, Tree.contains_iff, same.label]
    simpa [Tree.contains, Tree.size] using contained
  apply Nat.le_antisymm
  · exact Nat.le_of_not_lt fun below => Nat.lt_irrefl _ ((inside tree.size).mp below)
  · exact Nat.le_of_not_lt fun below => Nat.lt_irrefl _ ((inside other.size).mpr below)

/-- Shuffled tables are in order if the tables were. -/
theorem Tree.Tabled.shuffled (tabled : tree.Tabled) (same : tree.Shuffled other) :
    other.Tabled where
  linked :=
    { child_iff := fun place name quark => by
        rw [same.child tabled, same.label]
        exact tabled.linked.child_iff place name quark
      parent_lt := fun quark parent name found => by
        rw [same.label] at found
        exact tabled.linked.parent_lt quark parent name found }
  branches place :=
    { distinct := ((same.named place).map Prod.fst).nodup_iff.mpr (tabled.branches place).distinct
      named := fun entry member => by
        rw [same.size]
        exact (tabled.branches place).named entry ((same.named place).mem_iff.mp member)
      order := fun quark member => by
        rw [same.order] at member
        rw [same.size]
        exact (tabled.branches place).order quark member }

theorem Tree.Reachable.tabled (reachable : tree.Reachable) : tree.Tabled := by
  induction reachable with
  | empty => exact Tree.tabled_empty
  | call _ call ih =>
      exact Tree.call_keeps (fun _ _ _ tabled inside free => tabled.addChild inside free) ih call
  | shuffled _ same ih => exact ih.shuffled same

end Tabled

/-- Two trees agree when they have the same attributes in the same order and find the same
children. -/
structure Tree.Agrees (tree other : Tree) : Prop where
  size : other.size = tree.size
  label : ∀ quark, other.label quark = tree.label quark
  order : ∀ place, (other.branches place).order = (tree.branches place).order
  child : ∀ place name, other.child place name = tree.child place name

theorem Tree.Shuffled.agrees {tree other : Tree} (same : tree.Shuffled other)
    (tabled : tree.Tabled) : tree.Agrees other where
  size := same.size
  label := same.label
  order := same.order
  child := same.child tabled

section Agrees

variable {tree other : Tree}

theorem Tree.Agrees.contains (agrees : tree.Agrees other) (quark : Quark) :
    other.contains quark = tree.contains quark := by
  have size : other.nodes.size = tree.nodes.size := agrees.size
  rw [Tree.contains, Tree.contains, size]

/-- A new child at the same place keeps two trees in agreement. -/
theorem Tree.Agrees.addChild (agrees : tree.Agrees other) {place : Option Quark}
    (inside : tree.HasPlace place) (name : String) :
    (tree.addChild place name).Agrees (other.addChild place name) := by
  have size : other.nodes.size = tree.nodes.size := agrees.size
  have within : other.HasPlace place := by
    intro quark here
    rw [agrees.contains]
    exact inside quark here
  constructor
  case size => rw [Tree.size_addChild, Tree.size_addChild, agrees.size]
  case label =>
    intro quark
    rw [Tree.label_addChild, Tree.label_addChild, size, agrees.label]
  case order =>
    intro here
    rw [Tree.branches_addChild inside, Tree.branches_addChild within, size]
    by_cases same : here = place
    · rw [if_pos same, if_pos same, Branches.add, Branches.add, agrees.order]
    · rw [if_neg same, if_neg same, agrees.order]
  case child =>
    intro here called
    rw [Tree.child, Tree.child, Tree.branches_addChild inside, Tree.branches_addChild within, size]
    by_cases same : here = place
    · have before : (other.branches place).find called = (tree.branches place).find called :=
        agrees.child place called
      rw [if_pos same, if_pos same, Branches.find_add, Branches.find_add, before]
    · rw [if_neg same, if_neg same]
      exact agrees.child here called

/-- Two attempts agree when they have the same answer and leave trees in agreement. -/
def Attempt.Agree (attempt other : Attempt Tree Quark) : Prop :=
  other.result = attempt.result ∧ attempt.state.Agrees other.state

theorem Tree.Agrees.resolveChild (agrees : tree.Agrees other) (place : Option Quark)
    (name : String) : (tree.resolveChild place name).Agree (other.resolveChild place name) := by
  have size : other.nodes.size = tree.nodes.size := agrees.size
  unfold Tree.resolveChild
  rw [agrees.child]
  cases tree.child place name with
  | some quark => exact ⟨rfl, agrees⟩
  | none =>
      cases place with
      | none => exact ⟨by rw [size]; rfl, agrees.addChild tree.hasPlace_none name⟩
      | some parent =>
          simp only [agrees.contains]
          by_cases inside : tree.contains parent = true
          · rw [if_pos inside, if_pos inside, size]
            exact ⟨rfl, agrees.addChild (Tree.hasPlace_some inside) name⟩
          · rw [if_neg inside, if_neg inside]
            exact ⟨rfl, agrees⟩

theorem Tree.Agrees.resolve (agrees : tree.Agrees other) (place : Option Quark)
    (names : List String) : (tree.resolve place names).Agree (other.resolve place names) := by
  induction names generalizing tree other place with
  | nil => cases place <;> exact ⟨rfl, agrees⟩
  | cons name rest ih =>
      obtain ⟨answer, left⟩ := agrees.resolveChild place name
      rw [Tree.resolve, Tree.resolve, Attempt.andThen, Attempt.andThen, answer]
      cases (tree.resolveChild place name).result with
      | error error => exact ⟨rfl, left⟩
      | ok quark => exact ih left (some quark)

/-- Trees in agreement give the same answers to all calls, and stay in agreement. -/
theorem Tree.Agrees.callAll (agrees : tree.Agrees other) (calls : List TreeCall) :
    (other.callAll calls).1 = (tree.callAll calls).1 ∧
      (tree.callAll calls).2.Agrees (other.callAll calls).2 := by
  induction calls generalizing tree other with
  | nil => exact ⟨rfl, agrees⟩
  | cons call rest ih =>
      have step : (tree.call call).Agree (other.call call) := by
        cases call with
        | child place name => exact agrees.resolveChild place name
        | path place names => exact agrees.resolve place names
      obtain ⟨answers, left⟩ := ih step.2
      exact ⟨by rw [Tree.callAll, Tree.callAll, step.1, answers], left⟩

/-- The climb from a quark only reads labels. -/
theorem Tree.climb_succ (tree : Tree) (steps : Nat) (quark : Quark) :
    tree.climb (steps + 1) quark =
      match tree.label quark with
      | none => []
      | some (none, name) => [name]
      | some (some parent, name) => tree.climb steps parent ++ [name] := by
  rw [Tree.climb, Tree.label]
  cases tree.nodes[quark]? with
  | none => rfl
  | some node => cases parent : node.parent <;> simp [parent]

theorem Tree.Agrees.climb (agrees : tree.Agrees other) (steps : Nat) (quark : Quark) :
    other.climb steps quark = tree.climb steps quark := by
  induction steps generalizing quark with
  | zero => rfl
  | succ steps ih => simp only [Tree.climb_succ, agrees.label, ih]

theorem Tree.Agrees.walk (agrees : tree.Agrees other) (place : Option Quark)
    (path : List String) : other.walk place path = tree.walk place path := by
  induction path generalizing place with
  | nil => rfl
  | cons name rest ih => simp only [Tree.walk, agrees.child, ih]

theorem Tree.Agrees.below (agrees : tree.Agrees other) (depth : Nat) (quark : Quark) :
    other.below depth quark = tree.below depth quark := by
  induction depth generalizing quark with
  | zero => rfl
  | succ depth ih => simp only [Tree.below, Tree.childrenOf, agrees.order, ih]

theorem Tree.Agrees.reach (agrees : tree.Agrees other) (place : Option Quark)
    (pattern : List String) : other.reach place pattern = tree.reach place pattern := by
  induction pattern generalizing place with
  | nil => rfl
  | cons segment rest ih =>
      simp only [Tree.reach, Tree.reachOne, agrees.order, agrees.child, ih]

/-- Trees in agreement answer all questions alike. -/
theorem Tree.Agrees.alike (agrees : tree.Agrees other) : tree.Alike other := by
  have size : other.nodes.size = tree.nodes.size := agrees.size
  have segments (quark : Quark) : other.segmentsOf quark = tree.segmentsOf quark := by
    rw [Tree.segmentsOf, Tree.segmentsOf, size, agrees.climb]
  constructor
  case size => exact agrees.size
  case contains => exact agrees.contains
  case quarks => rw [Tree.quarks, Tree.quarks, size]
  case roots => exact agrees.order none
  case childrenOf => exact fun quark => agrees.order (some quark)
  case nameOf =>
    intro quark
    have names := congrArg (Option.map Prod.snd) (agrees.label quark)
    simpa [Tree.label, Tree.nameOf, Function.comp_def] using names
  case parentOf =>
    intro quark
    have parents := congrArg (fun label => label.bind Prod.fst) (agrees.label quark)
    simpa [Tree.label, Tree.parentOf, Option.bind_map, Function.comp_def] using parents
  case child => exact agrees.child
  case find =>
    intro place path
    cases place with
    | none => exact agrees.walk none path
    | some parent => rw [Tree.find, Tree.find, agrees.contains, agrees.walk]
  case segmentsOf => exact segments
  case pathOf =>
    intro quark separator
    rw [Tree.pathOf, Tree.pathOf, agrees.contains, segments]
  case subAttributes =>
    intro quark recursive
    rw [Tree.subAttributes, Tree.subAttributes, size, agrees.below, Tree.childrenOf,
      Tree.childrenOf, agrees.order]
  case matching =>
    intro place pattern
    rw [Tree.matching, Tree.matching, agrees.reach]

end Agrees

end Chronicle
