import Chronicle.Proofs.TreePaths

/-!
The paths that a tree knows, and the route to a place, which the paths below the place continue.
-/

namespace Chronicle

variable {tree grown : Tree} {place : Option Quark} {name : String} {path : List String}

/-- A known path leads from the top of the tree to an attribute. -/
def Tree.Knows (tree : Tree) (path : List String) : Prop :=
  ∃ quark, tree.find none path = some quark

/-- The route to a place is its path, which is empty at the top. -/
def Tree.route (tree : Tree) : Option Quark → List String
  | none => []
  | some quark => tree.segmentsOf quark

/-- A walk from an attribute leads to those whose path continues its own by the segments. -/
theorem Tree.Linked.walk_some_iff (linked : tree.Linked) {parent : Quark}
    (inside : tree.contains parent = true) (path : List String) (quark : Quark) :
    tree.walk (some parent) path = some quark ↔
      tree.contains quark = true ∧ tree.segmentsOf quark = tree.segmentsOf parent ++ path := by
  have start : tree.walk none (tree.segmentsOf parent) = some parent :=
    (linked.find_none_iff _ parent).mpr ⟨inside, rfl⟩
  have nonempty : tree.segmentsOf parent ≠ [] := by
    intro empty
    rw [empty] at start
    cases start
  rw [← linked.find_none_iff, Tree.find, tree.walk_append nonempty, start, Option.bind_some]

/-- The route to a child continues the route to its place by the name. -/
theorem Tree.Linked.segmentsOf_child (linked : tree.Linked) (inside : tree.HasPlace place)
    {quark : Quark} (found : tree.child place name = some quark) :
    tree.segmentsOf quark = tree.route place ++ [name] := by
  have step : tree.walk place [name] = some quark := (tree.walk_singleton place name).trans found
  cases place with
  | none => exact ((linked.find_none_iff [name] quark).mp step).2
  | some parent => exact ((linked.walk_some_iff (inside parent rfl) [name] quark).mp step).2

/-- A child hangs at a place of the tree. -/
theorem Tree.Linked.hasPlace_of_child (linked : tree.Linked) {quark : Quark}
    (found : tree.child place name = some quark) : tree.HasPlace place := by
  rintro parent rfl
  have label := (linked.child_iff (some parent) name quark).mp found
  have above := linked.parent_lt quark parent name label
  have within := Tree.label_lt label
  rw [Tree.contains, decide_eq_true_eq]
  lia

/-- A step between two attributes stays within the tree. -/
theorem Tree.Linked.contains_of_step (linked : tree.Linked) {parent quark : Quark}
    (reached : tree.walk (some parent) [name] = some quark) :
    tree.contains parent = true ∧ tree.contains quark = true := by
  rw [tree.walk_singleton] at reached
  exact ⟨linked.hasPlace_of_child reached parent rfl,
    Tree.contains_iff.mpr ⟨_, (linked.child_iff _ name quark).mp reached⟩⟩

/-- Walks from two children of a place only meet where the children are the same. -/
theorem Tree.Linked.child_unique (linked : tree.Linked) {called : String}
    {first second quark : Quark} {names others : List String}
    (found : tree.child place name = some first) (also : tree.child place called = some second)
    (reached : tree.walk (some first) names = some quark)
    (again : tree.walk (some second) others = some quark) : first = second := by
  have inside := linked.hasPlace_of_child found
  have present := Tree.contains_iff.mpr ⟨_, (linked.child_iff place name first).mp found⟩
  have within := Tree.contains_iff.mpr ⟨_, (linked.child_iff place called second).mp also⟩
  have path := ((linked.walk_some_iff present names quark).mp reached).2
  have same := ((linked.walk_some_iff within others quark).mp again).2
  rw [linked.segmentsOf_child inside found, List.append_assoc] at path
  rw [linked.segmentsOf_child inside also, List.append_assoc, path] at same
  have equal : name = called := (List.cons.inj (List.append_cancel_left same)).1
  rw [equal, also] at found
  exact (Option.some.inj found).symm

theorem Tree.Grows.route (grows : tree.Grows grown) (linked : tree.Linked) (after : grown.Linked)
    (inside : tree.HasPlace place) : grown.route place = tree.route place := by
  cases place with
  | none => rfl
  | some parent => exact grows.segmentsOf linked after (inside parent rfl)

/-- The beginnings of a known path are known. -/
theorem Tree.Knows.init {init : List String} (known : tree.Knows path) (nonempty : init ≠ [])
    (begins : init <+: path) : tree.Knows init := by
  obtain ⟨quark, found⟩ := known
  obtain ⟨rest, rfl⟩ := begins
  rw [Tree.find, tree.walk_append nonempty, Option.bind_eq_some_iff] at found
  obtain ⟨middle, reached, _⟩ := found
  exact ⟨middle, reached⟩

end Chronicle
