import Chronicle.Proofs.PathCreation
import Mathlib.Algebra.GroupWithZero.Nat
import Mathlib.Data.List.Nodup

/-!
The subtree of an attribute of a reachable tree: the depth bound of the enumeration is never reached,
and the enumeration has every attribute below once, directly followed by its own subtree.
-/

namespace Chronicle

variable {tree : Tree} {place : Option Quark} {quark : Quark}

/-- A finite depth-first walk over siblings lists the first of them, then all that a walk over its
children lists, and then the others with what is below them. -/
inductive Tree.DepthFirst (tree : Tree) : List Quark → List Quark → Prop
  | done : DepthFirst tree [] []
  | visit {child : Quark} {siblings below others : List Quark}
      (down : DepthFirst tree (tree.childrenOf child) below)
      (next : DepthFirst tree siblings others) :
      DepthFirst tree (child :: siblings) (child :: (below ++ others))

/-- All that is below a place, or all attributes at the top: every child with its subtree. -/
def Tree.offspring (tree : Tree) (place : Option Quark) : List Quark :=
  (tree.branches place).order.flatMap fun child => child :: tree.subAttributes child true

section Depth

/-- A child has a greater quark than its parent, and all quarks are below the size of the tree. -/
theorem Tree.Listed.child_lt (listed : tree.Listed) (linked : tree.Linked) {child : Quark}
    (member : child ∈ tree.childrenOf quark) : quark < child ∧ child < tree.size := by
  obtain ⟨name, label⟩ := (listed.order_iff (some quark) child).mp member
  exact ⟨linked.parent_lt child quark name label, Tree.label_lt label⟩

/-- What holds at a place whenever it holds at all children of the place, holds everywhere. The
induction is on the number of quarks that are greater than the place. -/
theorem Tree.Listed.place_induction (listed : tree.Listed) (linked : tree.Linked)
    {Holds : Option Quark → Prop}
    (step : ∀ place, (∀ child ∈ (tree.branches place).order, Holds (some child)) → Holds place)
    (place : Option Quark) : Holds place := by
  have attributes (greater : Nat) :
      ∀ quark, tree.size ≤ quark + greater → Holds (some quark) := by
    induction greater with
    | zero =>
        intro quark beyond
        apply step
        intro child member
        have bounds := listed.child_lt linked member
        lia
    | succ greater ih =>
        intro quark within
        apply step
        intro child member
        have bounds := listed.child_lt linked member
        exact ih child (by lia)
  apply step
  intro child _
  exact attributes tree.size child (Nat.le_add_left tree.size child)

/-- Where the depth covers all greater quarks, one more changes nothing. -/
theorem Tree.Listed.below_succ (listed : tree.Listed) (linked : tree.Linked) (depth : Nat) :
    ∀ quark, tree.size ≤ quark + depth → tree.below (depth + 1) quark = tree.below depth quark := by
  induction depth with
  | zero =>
      intro quark beyond
      have childless : tree.childrenOf quark = [] := by
        apply List.eq_nil_iff_forall_not_mem.mpr
        intro child member
        have bounds := listed.child_lt linked member
        lia
      rw [Tree.below, Tree.below, childless, List.flatMap_nil]
  | succ depth ih =>
      intro quark within
      rw [Tree.below, Tree.below]
      apply List.flatMap_congr
      intro child member
      have bounds := listed.child_lt linked member
      rw [ih child (by lia)]

/-- The subtree of an attribute has every child, directly followed by the subtree of the child. -/
theorem Tree.Listed.subAttributes_eq (listed : tree.Listed) (linked : tree.Linked)
    (quark : Quark) : tree.subAttributes quark true = tree.offspring (some quark) := by
  have enough := listed.below_succ linked tree.size quark (Nat.le_add_left tree.size quark)
  show tree.below tree.size quark = tree.offspring (some quark)
  rw [← enough]
  rfl

end Depth

section Offspring

/-- A walk over siblings is made of a walk over the children of each. -/
theorem Tree.depthFirst_flatMap {siblings : List Quark}
    (down : ∀ child ∈ siblings,
      tree.DepthFirst (tree.childrenOf child) (tree.subAttributes child true)) :
    tree.DepthFirst siblings
      (siblings.flatMap fun child => child :: tree.subAttributes child true) := by
  induction siblings with
  | nil => exact Tree.DepthFirst.done
  | cons child rest ih =>
      obtain ⟨first, others⟩ := List.forall_mem_cons.mp down
      exact Tree.DepthFirst.visit first (ih others)

/-- A walk over siblings lists one thing only. -/
theorem Tree.DepthFirst.unique {siblings visited others : List Quark}
    (walk : tree.DepthFirst siblings visited) (again : tree.DepthFirst siblings others) :
    visited = others := by
  induction walk generalizing others with
  | done =>
      cases again
      rfl
  | visit _ _ below after =>
      cases again with
      | visit down next => rw [below down, after next]

/-- The offspring of a place is what a depth-first walk over its children lists. -/
theorem Tree.Listed.depthFirst (listed : tree.Listed) (linked : tree.Linked)
    (place : Option Quark) :
    tree.DepthFirst (tree.branches place).order (tree.offspring place) := by
  induction place using listed.place_induction linked with
  | step place ih =>
      apply Tree.depthFirst_flatMap
      intro child member
      rw [listed.subAttributes_eq linked]
      exact ih child member

/-- The offspring of a place are the attributes to which a path leads from there. -/
theorem Tree.Listed.mem_offspring (listed : tree.Listed) (linked : tree.Linked) :
    quark ∈ tree.offspring place ↔ ∃ names, names ≠ [] ∧ tree.walk place names = some quark := by
  induction place using listed.place_induction linked with
  | step place ih =>
      rw [Tree.offspring, List.mem_flatMap]
      constructor
      · intro member
        obtain ⟨child, here, among⟩ := member
        obtain ⟨name, found⟩ := (listed.mem_order linked).mp here
        rw [listed.subAttributes_eq linked, List.mem_cons, ih child here] at among
        rcases among with rfl | ⟨names, _, reached⟩
        · exact ⟨[name], by simp, by simp [Tree.walk, found]⟩
        · exact ⟨name :: names, by simp, by simp [Tree.walk, found, reached]⟩
      · intro leads
        obtain ⟨names, nonempty, reached⟩ := leads
        obtain ⟨name, rest, rfl⟩ := List.exists_cons_of_ne_nil nonempty
        rw [Tree.walk] at reached
        cases found : tree.child place name with
        | none => simp [found] at reached
        | some child =>
            simp only [found] at reached
            have here := (listed.mem_order linked).mpr ⟨name, found⟩
            refine ⟨child, here, ?_⟩
            rw [listed.subAttributes_eq linked, List.mem_cons, ih child here]
            by_cases last : rest = []
            · subst last
              exact Or.inl (Option.some.inj reached).symm
            · exact Or.inr ⟨rest, last, reached⟩

/-- A child with its subtree is all to which a path leads from the child, the empty path included. -/
theorem Tree.Listed.mem_child (listed : tree.Listed) (linked : tree.Linked) {child : Quark}
    (member : quark ∈ child :: tree.subAttributes child true) :
    ∃ names, tree.walk (some child) names = some quark := by
  rw [listed.subAttributes_eq linked, List.mem_cons, listed.mem_offspring linked] at member
  rcases member with rfl | ⟨names, _, reached⟩
  · exact ⟨[], rfl⟩
  · exact ⟨names, reached⟩

/-- No attribute is below itself. -/
theorem Tree.Listed.not_mem_own (listed : tree.Listed) (linked : tree.Linked)
    (inside : tree.contains quark = true) : quark ∉ tree.offspring (some quark) := by
  intro member
  obtain ⟨names, nonempty, reached⟩ := (listed.mem_offspring linked).mp member
  have path := ((linked.walk_some_iff inside names quark).mp reached).2
  exact nonempty (List.append_right_eq_self.mp path.symm)

/-- No attribute is listed twice, since the subtrees of different children do not meet. -/
theorem Tree.Listed.nodup_offspring (listed : tree.Listed) (linked : tree.Linked)
    (place : Option Quark) : (tree.offspring place).Nodup := by
  induction place using listed.place_induction linked with
  | step place ih =>
      rw [Tree.offspring, List.nodup_flatMap]
      constructor
      · intro child here
        obtain ⟨name, label⟩ := (listed.order_iff place child).mp here
        have inside := Tree.contains_iff.mpr ⟨_, label⟩
        rw [listed.subAttributes_eq linked, List.nodup_cons]
        exact ⟨listed.not_mem_own linked inside, ih child here⟩
      · refine (listed.ascending place).imp_of_mem ?_
        intro first second here there before target former latter
        obtain ⟨name, found⟩ := (listed.mem_order linked).mp here
        obtain ⟨called, also⟩ := (listed.mem_order linked).mp there
        obtain ⟨names, reached⟩ := listed.mem_child linked former
        obtain ⟨others, again⟩ := listed.mem_child linked latter
        have same := linked.child_unique found also reached again
        lia

/-- Every listed attribute is directly followed by its own subtree. -/
theorem Tree.Listed.followed (listed : tree.Listed) (linked : tree.Linked)
    (member : quark ∈ tree.offspring place) :
    ∃ before after,
      tree.offspring place = before ++ quark :: (tree.subAttributes quark true ++ after) := by
  induction place using listed.place_induction linked with
  | step place ih =>
      obtain ⟨child, here, among⟩ := List.mem_flatMap.mp member
      obtain ⟨former, latter, split⟩ := List.append_of_mem here
      have whole : tree.offspring place =
          (former.flatMap fun child => child :: tree.subAttributes child true) ++
            child :: (tree.subAttributes child true ++
              latter.flatMap fun child => child :: tree.subAttributes child true) := by
        rw [Tree.offspring, split, List.flatMap_append, List.flatMap_cons, List.cons_append]
      rw [whole]
      rcases List.mem_cons.mp among with rfl | below
      · exact ⟨_, _, rfl⟩
      · rw [listed.subAttributes_eq linked child] at below ⊢
        obtain ⟨before, after, inner⟩ := ih child here below
        rw [inner]
        refine ⟨(former.flatMap fun child => child :: tree.subAttributes child true) ++
          child :: before, after ++
            latter.flatMap fun child => child :: tree.subAttributes child true, ?_⟩
        simp only [List.append_assoc, List.cons_append]

/-- From the top every attribute of the tree is listed once. -/
theorem Tree.Listed.perm_offspring (listed : tree.Listed) (linked : tree.Linked) :
    (tree.offspring none).Perm tree.quarks := by
  apply (List.perm_ext_iff_of_nodup (listed.nodup_offspring linked none) List.nodup_range).mpr
  intro quark
  have bound : quark ∈ List.range tree.nodes.size ↔ tree.contains quark = true := by
    simp [Tree.contains]
  rw [listed.mem_offspring linked, bound]
  constructor
  · intro leads
    obtain ⟨names, _, reached⟩ := leads
    exact ((linked.find_none_iff names quark).mp reached).1
  · intro inside
    have reached := (linked.find_none_iff (tree.segmentsOf quark) quark).mpr ⟨inside, rfl⟩
    refine ⟨tree.segmentsOf quark, ?_, reached⟩
    intro empty
    rw [empty] at reached
    cases reached

end Offspring

/-- In a reachable tree the whole subtree of an attribute is what a finite depth-first walk over its
children lists, child by child in the order of creation. It has exactly the attributes whose path
continues the path of the attribute, each once and directly followed by its own subtree. The subtrees
of the roots, each with its root, have as many members as the tree. -/
theorem Tree.subtree_enumerated {tree : Tree} (reachable : tree.Reachable) :
    (∀ quark, tree.contains quark = true →
      (∀ visited, tree.DepthFirst (tree.childrenOf quark) visited ↔
        visited = tree.subAttributes quark true) ∧
      (tree.subAttributes quark true =
        (tree.childrenOf quark).flatMap fun child => child :: tree.subAttributes child true) ∧
      (∀ other, other ∈ tree.subAttributes quark true ↔ tree.contains other = true ∧
        ∃ names, names ≠ [] ∧ tree.segmentsOf other = tree.segmentsOf quark ++ names) ∧
      (tree.subAttributes quark true).Nodup ∧
      ∀ other ∈ tree.subAttributes quark true, ∃ before after,
        tree.subAttributes quark true =
          before ++ other :: (tree.subAttributes other true ++ after)) ∧
    (∀ quark, (tree.childrenOf quark).Pairwise (· < ·)) ∧
    (tree.roots.map fun root => (tree.subAttributes root true).length + 1).sum = tree.size := by
  have linked := reachable.linked
  have listed := reachable.listed
  refine ⟨?_, fun quark => listed.ascending (some quark), ?_⟩
  · intro quark inside
    have subtree := listed.subAttributes_eq linked quark
    refine ⟨?_, subtree, ?_, ?_, ?_⟩
    · intro visited
      have walk := listed.depthFirst linked (some quark)
      rw [← subtree] at walk
      constructor
      · exact fun again => again.unique walk
      · rintro rfl
        exact walk
    · intro other
      rw [subtree, listed.mem_offspring linked]
      simp only [linked.walk_some_iff inside]
      constructor
      · intro leads
        obtain ⟨names, nonempty, within, path⟩ := leads
        exact ⟨within, names, nonempty, path⟩
      · intro continues
        obtain ⟨within, names, nonempty, path⟩ := continues
        exact ⟨names, nonempty, within, path⟩
    · rw [subtree]
      exact listed.nodup_offspring linked (some quark)
    · intro other member
      rw [subtree] at member ⊢
      exact listed.followed linked member
  · calc (tree.roots.map fun root => (tree.subAttributes root true).length + 1).sum
        = (tree.offspring none).length := by
          rw [Tree.offspring, List.length_flatMap]
          rfl
      _ = tree.quarks.length := (listed.perm_offspring linked).length_eq
      _ = tree.size := List.length_range

/-- The first slot gets a second attribute after the second slot was created. -/
def branchCalls : List TreeCall :=
  [.path none ["a", "0", "status"], .path none ["a", "1"], .path none ["a", "0", "info"],
    .path none ["b"]]

/-- The late attribute is listed with its slot and before the second slot, and all six attributes are
in the subtrees of the two roots. -/
theorem Tree.subtree_of_branches :
    let tree := (Tree.empty.callAll branchCalls).2
    tree.Reachable ∧ tree.contains 0 = true ∧ tree.subAttributes 0 true = [1, 2, 4, 3] ∧
      tree.DepthFirst [1, 3] [1, 2, 4, 3] ∧ 4 ∈ tree.subAttributes 0 true ∧
      5 ∉ tree.subAttributes 0 true ∧
      (tree.roots.map fun root => (tree.subAttributes root true).length + 1).sum = 6 := by
  intro tree
  have reachable : tree.Reachable := Tree.Reachable.empty.callAll branchCalls
  have inside : tree.contains 0 = true := by decide +kernel
  obtain ⟨subtrees, _, total⟩ := Tree.subtree_enumerated reachable
  obtain ⟨walks, _, exactly, _, _⟩ := subtrees 0 inside
  have listed : tree.subAttributes 0 true = [1, 2, 4, 3] := by decide +kernel
  have children : tree.childrenOf 0 = [1, 3] := by decide +kernel
  refine ⟨reachable, inside, listed, ?_, ?_, ?_, total.trans (by decide +kernel)⟩
  · rw [← children, walks, listed]
  · exact (exactly 4).mpr ⟨by decide +kernel, ["0", "info"], by simp, by decide +kernel⟩
  · rw [listed]
    decide

end Chronicle
