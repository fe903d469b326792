import Chronicle.Tree.Traversal
import Mathlib.Data.List.Basic

/-!
The links between parents and children of a tree, and what they make of paths: every attribute has
one path, and a path has at most one attribute.
-/

namespace Chronicle

/-- The label of a quark says where it hangs and how it is named there. -/
def Tree.label (tree : Tree) (quark : Quark) : Option (Option Quark × String) :=
  (tree.nodes[quark]?).map fun node => (node.parent, node.name)

/-- A linked tree finds a child exactly where its label places it, and parents precede children. -/
structure Tree.Linked (tree : Tree) : Prop where
  child_iff : ∀ place name quark,
    tree.child place name = some quark ↔ tree.label quark = some (place, name)
  parent_lt : ∀ quark parent name, tree.label quark = some (some parent, name) → parent < quark

/-- A tree grows when it keeps all labels. -/
def Tree.Grows (tree grown : Tree) : Prop :=
  ∀ quark label, tree.label quark = some label → grown.label quark = some label

/-- A place is the top of the tree or an attribute in it. -/
def Tree.HasPlace (tree : Tree) (place : Option Quark) : Prop :=
  ∀ quark, place = some quark → tree.contains quark = true

theorem Tree.contains_iff {tree : Tree} {quark : Quark} :
    tree.contains quark = true ↔ ∃ label, tree.label quark = some label := by
  simp only [Tree.contains, decide_eq_true_eq, Tree.label]
  constructor
  · intro inside
    exact ⟨_, by rw [Array.getElem?_eq_getElem inside, Option.map_some]⟩
  · rintro ⟨label, found⟩
    by_contra outside
    simp [Array.getElem?_eq_none (Nat.le_of_not_lt outside)] at found

theorem Tree.label_lt {tree : Tree} {quark : Quark} {label : Option Quark × String}
    (found : tree.label quark = some label) : quark < tree.nodes.size := by
  simpa [Tree.contains] using Tree.contains_iff.mpr ⟨label, found⟩

theorem Tree.Grows.refl (tree : Tree) : tree.Grows tree := fun _ _ found => found

theorem Tree.Grows.trans {tree middle grown : Tree} (first : tree.Grows middle)
    (second : middle.Grows grown) : tree.Grows grown :=
  fun quark label found => second quark label (first quark label found)

theorem Tree.Grows.contains {tree grown : Tree} (grows : tree.Grows grown) {quark : Quark}
    (inside : tree.contains quark = true) : grown.contains quark = true := by
  obtain ⟨label, found⟩ := Tree.contains_iff.mp inside
  exact Tree.contains_iff.mpr ⟨label, grows quark label found⟩

theorem Tree.hasPlace_none (tree : Tree) : tree.HasPlace none := by
  intro quark impossible
  cases impossible

theorem Tree.hasPlace_some {tree : Tree} {quark : Quark} (inside : tree.contains quark = true) :
    tree.HasPlace (some quark) := by
  rintro _ ⟨rfl⟩
  exact inside

theorem Tree.linked_empty : Tree.empty.Linked where
  child_iff place name quark := by
    cases place <;> simp [Tree.child, Tree.branches, Tree.empty, Branches.find, Branches.empty,
      Tree.label]
  parent_lt quark parent name found := by simp [Tree.empty, Tree.label] at found

/-- The first entry answers for its own name, and the others answer for all other names. -/
theorem lookup_cons_eq_if {Name Held : Type} [DecidableEq Name] (first other : Name) (held : Held)
    (rest : List (Name × Held)) :
    ((first, held) :: rest).lookup other = if other = first then some held else rest.lookup other := by
  rw [List.lookup_cons]
  by_cases same : other = first
  · simp [same]
  · have differs : (other == first) = false := by simp [same]
    simp [same, differs]

/-- Replacing the entry of a name changes the answer for this name, if it has one. -/
theorem lookup_replace {Name Held : Type} [DecidableEq Name] (entries : List (Name × Held))
    (name other : Name) (given : Held) :
    (entries.map fun entry => if entry.1 = name then (name, given) else entry).lookup other =
      if other = name then (entries.lookup name).map fun _ => given else entries.lookup other := by
  induction entries with
  | nil => simp
  | cons entry rest ih =>
      obtain ⟨first, held⟩ := entry
      rw [List.map_cons, lookup_cons_eq_if, lookup_cons_eq_if]
      by_cases own : first = name
      · subst own
        rw [if_pos rfl, if_pos rfl, lookup_cons_eq_if, ih]
        by_cases same : other = first <;> simp [same]
      · rw [if_neg (Ne.symm own)]
        simp only [own, if_false]
        rw [lookup_cons_eq_if, ih]
        by_cases same : other = name
        · have differs : other ≠ first := fun equal => own (equal.symm.trans same)
          rw [if_neg differs, if_pos same, if_pos same]
        · rw [if_neg same, if_neg same]

/-- A name that finds nothing is the name of no entry. -/
theorem not_mem_of_lookup_eq_none {Name Held : Type} [DecidableEq Name] {name : Name}
    {entries : List (Name × Held)} (missing : entries.lookup name = none) :
    name ∉ entries.map Prod.fst := by
  intro member
  obtain ⟨entry, among, rfl⟩ := List.mem_map.mp member
  have differs := List.lookup_eq_none_iff.mp missing entry among
  simp at differs

section AddChild

variable {tree : Tree} {place : Option Quark} {name : String}

theorem Branches.find_add (branches : Branches) (name other : String) (quark : Quark) :
    (branches.add name quark).find other =
      (branches.find other).or (if other = name then some quark else none) := by
  simp only [Branches.find, Branches.add, List.lookup_append, List.lookup_cons, List.lookup_nil]
  by_cases same : other = name
  · simp [same]
  · have differs : (other == name) = false := by simp [same]
    simp [same, differs]

/-- A new child has the next quark. -/
theorem Tree.label_addChild (other : Quark) :
    (tree.addChild place name).label other =
      if other = tree.nodes.size then some (place, name) else tree.label other := by
  cases place with
  | none =>
      simp only [Tree.addChild, Tree.label, Array.getElem?_push]
      by_cases last : other = tree.nodes.size <;> simp [last]
  | some parent =>
      simp only [Tree.addChild, Tree.label, Array.getElem?_modify, Array.getElem?_push]
      by_cases last : other = tree.nodes.size
      · by_cases own : parent = tree.nodes.size <;> simp [last, own]
      · by_cases own : parent = other <;> simp [last, own, Option.map_map, Function.comp_def]

/-- Only the branches of its parent get the new child. -/
theorem Tree.branches_addChild (inside : tree.HasPlace place) (other : Option Quark) :
    (tree.addChild place name).branches other =
      if other = place then (tree.branches place).add name tree.nodes.size
      else tree.branches other := by
  cases place with
  | none =>
      cases other with
      | none => rfl
      | some quark =>
          simp only [Tree.addChild, Tree.branches, Array.getElem?_push]
          by_cases last : quark = tree.nodes.size <;> simp [last]
  | some parent =>
      have bound : parent < tree.nodes.size := by simpa [Tree.contains] using inside parent rfl
      cases other with
      | none => rfl
      | some quark =>
          simp only [Tree.addChild, Tree.branches, Array.getElem?_modify, Array.getElem?_push]
          by_cases own : quark = parent
          · subst quark
            simp [Nat.ne_of_lt bound, Array.getElem?_eq_getElem bound]
          · by_cases last : quark = tree.nodes.size
            · simp [last, Nat.ne_of_lt bound, Nat.ne_of_gt bound]
            · simp [last, own, Ne.symm own]

theorem Tree.grows_addChild (tree : Tree) (place : Option Quark) (name : String) :
    tree.Grows (tree.addChild place name) := by
  intro quark label found
  rw [Tree.label_addChild, if_neg (Nat.ne_of_lt (Tree.label_lt found))]
  exact found

/-- Adding a child under a free name keeps the links. -/
theorem Tree.linked_addChild (linked : tree.Linked) (inside : tree.HasPlace place)
    (free : tree.child place name = none) : (tree.addChild place name).Linked where
  child_iff other called quark := by
    rw [Tree.child, Tree.branches_addChild inside, Tree.label_addChild]
    have fresh : tree.label tree.nodes.size = none := by simp [Tree.label]
    have before := linked.child_iff other called quark
    simp only [Tree.child] at before free
    by_cases here : other = place
    · subst other
      rw [if_pos rfl, Branches.find_add]
      by_cases same : called = name
      · subst called
        rw [free, Option.none_or, if_pos rfl]
        rw [free] at before
        by_cases last : quark = tree.nodes.size
        · simp [last]
        · simpa [last, Ne.symm last] using before
      · rw [if_neg same, Option.or_none, before]
        by_cases last : quark = tree.nodes.size
        · simp [last, fresh, Ne.symm same]
        · simp [last]
    · rw [if_neg here, before]
      by_cases last : quark = tree.nodes.size
      · simp [last, fresh, Ne.symm here]
      · simp [last]
  parent_lt quark parent called found := by
    rw [Tree.label_addChild] at found
    by_cases last : quark = tree.nodes.size
    · rw [if_pos last, Option.some.injEq, Prod.mk.injEq] at found
      simpa [Tree.contains, last] using inside parent found.1
    · rw [if_neg last] at found
      exact linked.parent_lt quark parent called found

end AddChild

end Chronicle
