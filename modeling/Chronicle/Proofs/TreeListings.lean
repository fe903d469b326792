import Chronicle.Proofs.ShuffledTrees
import Chronicle.Proofs.TreePaths

/-!
The lists and the tables of a reachable tree tell the same as its labels: every attribute stands
once among the children of its parent, in the order of creation, and has one entry in the table
there. Attributes and their paths correspond one to one.
-/

namespace Chronicle

/-- The list of a place has exactly the attributes that hang there, in the order of creation. -/
structure Tree.Listed (tree : Tree) : Prop where
  order_iff : ∀ place quark,
    quark ∈ (tree.branches place).order ↔ ∃ name, tree.label quark = some (place, name)
  ascending : ∀ place, (tree.branches place).order.Pairwise (· < ·)

variable {tree other : Tree} {place : Option Quark} {quark : Quark} {name : String}

theorem Tree.listed_empty : Tree.empty.Listed where
  order_iff place quark := by
    cases place <;> simp [Tree.branches, Tree.empty, Branches.empty, Tree.label]
  ascending place := by
    cases place <;> exact List.Pairwise.nil

/-- A new child has the greatest quark and comes last in the list of its parent. -/
theorem Tree.Listed.addChild (listed : tree.Listed) (inside : tree.HasPlace place)
    (name : String) : (tree.addChild place name).Listed where
  order_iff other quark := by
    have fresh : tree.label tree.nodes.size = none := by simp [Tree.label]
    have before := listed.order_iff other quark
    rw [Tree.branches_addChild inside, Tree.label_addChild]
    by_cases here : other = place
    · subst other
      by_cases last : quark = tree.nodes.size
      · simp [Branches.add, last]
      · simp [Branches.add, last, before]
    · by_cases last : quark = tree.nodes.size
      · subst last
        simpa [here, Ne.symm here, fresh] using before
      · simpa [here, last] using before
  ascending other := by
    rw [Tree.branches_addChild inside]
    by_cases here : other = place
    · rw [if_pos here, Branches.add, List.pairwise_append]
      refine ⟨listed.ascending place, List.pairwise_singleton _ _, ?_⟩
      intro quark member _ last
      obtain ⟨name, present⟩ := (listed.order_iff place quark).mp member
      rw [List.mem_singleton.mp last]
      exact Tree.label_lt present
    · rw [if_neg here]
      exact listed.ascending other

theorem Tree.Listed.shuffled (listed : tree.Listed) (same : tree.Shuffled other) :
    other.Listed where
  order_iff place quark := by
    rw [same.order, same.label]
    exact listed.order_iff place quark
  ascending place := by
    rw [same.order]
    exact listed.ascending place

theorem Tree.Reachable.listed (reachable : tree.Reachable) : tree.Listed := by
  induction reachable with
  | empty => exact Tree.listed_empty
  | call _ call ih =>
      exact Tree.call_keeps (fun _ _ name listed inside _ => listed.addChild inside name) ih call
  | shuffled _ same ih => exact ih.shuffled same

/-- Calls one after another, refused or not, lead from a reachable tree to a reachable tree. -/
theorem Tree.Reachable.callAll (reachable : tree.Reachable) (calls : List TreeCall) :
    (tree.callAll calls).2.Reachable := by
  induction calls generalizing tree with
  | nil => exact reachable
  | cons call rest ih => exact ih (reachable.call call)

theorem Tree.Reachable.linked (reachable : tree.Reachable) : tree.Linked :=
  reachable.tabled.linked

/-- The label of an attribute gives its parent and its name. -/
theorem Tree.label_eq_some_iff : tree.label quark = some (place, name) ↔
    tree.contains quark = true ∧ tree.parentOf quark = place ∧
      tree.nameOf quark = some name := by
  rw [Tree.contains_iff, Tree.label, Tree.parentOf, Tree.nameOf]
  cases tree.nodes[quark]? <;> simp

/-- No attribute stands in two lists. -/
theorem Tree.Listed.place_unique (listed : tree.Listed) {elsewhere : Option Quark}
    (here : quark ∈ (tree.branches place).order)
    (there : quark ∈ (tree.branches elsewhere).order) : place = elsewhere := by
  obtain ⟨name, present⟩ := (listed.order_iff place quark).mp here
  obtain ⟨called, again⟩ := (listed.order_iff elsewhere quark).mp there
  rw [present, Option.some.injEq, Prod.mk.injEq] at again
  exact again.1

/-- The list of a place has the children that are found there by some name. -/
theorem Tree.Listed.mem_order (listed : tree.Listed) (linked : tree.Linked) :
    quark ∈ (tree.branches place).order ↔ ∃ name, tree.child place name = some quark := by
  simp only [listed.order_iff, linked.child_iff]

/-- An attribute stands in the list of its parent. -/
theorem Tree.Listed.mem_own (listed : tree.Listed) (inside : tree.contains quark = true) :
    quark ∈ (tree.branches (tree.parentOf quark)).order := by
  obtain ⟨⟨place, name⟩, present⟩ := Tree.contains_iff.mp inside
  obtain ⟨_, same, _⟩ := Tree.label_eq_some_iff.mp present
  rw [same]
  exact (listed.order_iff place quark).mpr ⟨name, present⟩

/-- A parent has a smaller quark than its child. -/
theorem Tree.Linked.parentOf_lt (linked : tree.Linked) {parent : Quark}
    (above : tree.parentOf quark = some parent) : parent < quark := by
  obtain ⟨node, present, hangs⟩ := Option.bind_eq_some_iff.mp above
  apply linked.parent_lt quark parent node.name
  rw [Tree.label, present, ← hangs]
  rfl

/-- The lists of the top and of all attributes have every attribute once. -/
theorem Tree.Listed.perm_quarks (listed : tree.Listed) (linked : tree.Linked) :
    (tree.roots ++ tree.quarks.flatMap tree.childrenOf).Perm tree.quarks := by
  have distinct (place : Option Quark) : (tree.branches place).order.Nodup :=
    (listed.ascending place).imp fun before => Nat.ne_of_lt before
  have once : (tree.roots ++ tree.quarks.flatMap tree.childrenOf).Nodup := by
    refine List.nodup_append.mpr ⟨distinct none, List.nodup_flatMap.mpr ⟨?_, ?_⟩, ?_⟩
    · exact fun parent _ => distinct (some parent)
    · refine List.nodup_range.imp fun apart => ?_
      exact fun _ here there => apart (Option.some.inj (listed.place_unique here there))
    · rintro quark root child below rfl
      obtain ⟨parent, _, member⟩ := List.mem_flatMap.mp below
      have top : quark ∈ (tree.branches none).order := root
      have under : quark ∈ (tree.branches (some parent)).order := member
      cases listed.place_unique top under
  apply (List.perm_ext_iff_of_nodup once List.nodup_range).mpr
  intro quark
  have bound : quark ∈ tree.quarks ↔ tree.contains quark = true := by
    simp [Tree.quarks, Tree.contains]
  rw [List.mem_append, List.mem_flatMap]
  constructor
  · rintro (root | ⟨parent, _, child⟩)
    · obtain ⟨name, present⟩ := (listed.order_iff none quark).mp root
      exact bound.mpr (Tree.contains_iff.mpr ⟨_, present⟩)
    · obtain ⟨name, present⟩ := (listed.order_iff (some parent) quark).mp child
      exact bound.mpr (Tree.contains_iff.mpr ⟨_, present⟩)
  · intro member
    obtain ⟨⟨place, name⟩, present⟩ := Tree.contains_iff.mp (bound.mp member)
    have own := (listed.order_iff place quark).mpr ⟨name, present⟩
    cases place with
    | none => exact Or.inl own
    | some parent =>
        have earlier := linked.parent_lt quark parent name present
        have within := Tree.label_lt present
        exact Or.inr ⟨parent, List.mem_range.mpr (by lia), own⟩

/-- The table of a place has the entries of the children that are listed there. -/
theorem Tree.Listed.named_iff (listed : tree.Listed) (tabled : tree.Tabled) (place : Option Quark)
    (name : String) (quark : Quark) :
    (name, quark) ∈ (tree.branches place).named ↔
      quark ∈ (tree.branches place).order ∧ tree.nameOf quark = some name := by
  rw [← lookup_eq_some_iff_mem (tabled.branches place).distinct, listed.order_iff]
  change tree.child place name = some quark ↔ _
  rw [tabled.linked.child_iff]
  constructor
  · intro present
    exact ⟨⟨name, present⟩, (Tree.label_eq_some_iff.mp present).2.2⟩
  · rintro ⟨⟨called, present⟩, named⟩
    obtain ⟨inside, parent, _⟩ := Tree.label_eq_some_iff.mp present
    exact Tree.label_eq_some_iff.mpr ⟨inside, parent, named⟩

/-- In a reachable tree attributes and their paths correspond one to one, parents precede their
children, and every attribute stands once in all lists of children, which ascend, namely in that of
its parent. The tables name exactly the listed children. -/
theorem Tree.addressing_bijective {tree : Tree} (reachable : tree.Reachable) :
    ((∀ quark, tree.contains quark = true → tree.find none (tree.segmentsOf quark) = some quark) ∧
      (∀ path quark, tree.find none path = some quark →
        tree.contains quark = true ∧ path = tree.segmentsOf quark) ∧
      ∀ quark other, tree.contains quark = true → tree.contains other = true →
        tree.segmentsOf quark = tree.segmentsOf other → quark = other) ∧
    (∀ quark parent, tree.parentOf quark = some parent → parent < quark) ∧
    ((tree.roots ++ tree.quarks.flatMap tree.childrenOf).Perm tree.quarks ∧
      ∀ quark, tree.contains quark = true →
        quark ∈ (tree.branches (tree.parentOf quark)).order) ∧
    (∀ place, (tree.branches place).order.Pairwise (· < ·)) ∧
    ∀ place, ((tree.branches place).named.map Prod.fst).Nodup ∧
      ∀ name quark, (name, quark) ∈ (tree.branches place).named ↔
        quark ∈ (tree.branches place).order ∧ tree.nameOf quark = some name := by
  have tabled := reachable.tabled
  have linked := tabled.linked
  have listed := reachable.listed
  have found (quark : Quark) (inside : tree.contains quark = true) :
      tree.find none (tree.segmentsOf quark) = some quark :=
    (linked.find_none_iff _ quark).mpr ⟨inside, rfl⟩
  refine ⟨⟨found, ?_, ?_⟩, ?_, ⟨listed.perm_quarks linked, ?_⟩, listed.ascending, ?_⟩
  · intro path quark reached
    obtain ⟨inside, same⟩ := (linked.find_none_iff path quark).mp reached
    exact ⟨inside, same.symm⟩
  · exact fun quark other inside within same => linked.eq_of_segmentsOf inside within same
  · exact fun quark parent above => linked.parentOf_lt above
  · exact fun quark inside => listed.mem_own inside
  · exact fun place => ⟨(tabled.branches place).distinct, listed.named_iff tabled place⟩

/-- The load is named at the top and below the disk, and a call below a missing attribute fails. -/
def loadCalls : List TreeCall :=
  [.path none ["disk", "status"], .child (some 7) "load", .path none ["load"],
    .path (some 0) ["load"]]

/-- Both loads are found by their own paths, and four attributes stand in the lists. -/
theorem Tree.addressing_of_loads :
    let tree := (Tree.empty.callAll loadCalls).2
    tree.Reachable ∧ tree.find none ["load"] = some 2 ∧ tree.find none ["disk", "load"] = some 3 ∧
      tree.segmentsOf 2 ≠ tree.segmentsOf 3 ∧
      (tree.roots ++ tree.quarks.flatMap tree.childrenOf).Perm [0, 1, 2, 3] ∧
      ("load", 3) ∈ (tree.branches (some 0)).named := by
  intro tree
  have reachable : tree.Reachable := Tree.Reachable.empty.callAll loadCalls
  obtain ⟨⟨found, _, apart⟩, _, ⟨once, own⟩, _, tables⟩ := Tree.addressing_bijective reachable
  have root : tree.segmentsOf 2 = ["load"] := by decide +kernel
  have child : tree.segmentsOf 3 = ["disk", "load"] := by decide +kernel
  refine ⟨reachable, root ▸ found 2 (by decide +kernel), child ▸ found 3 (by decide +kernel), ?_,
    once, ?_⟩
  · intro same
    cases apart 2 3 (by decide +kernel) (by decide +kernel) same
  · exact ((tables (some 0)).2 "load" 3).mpr ⟨own 3 (by decide +kernel), by decide +kernel⟩

end Chronicle
