import Chronicle.Proofs.TreeLinks
import Mathlib.Data.List.Induction

/-!
Paths of a linked tree: looking up a path inverts reading the path of an attribute, and resolving a
path creates what is missing without changing any other path.
-/

namespace Chronicle

variable {tree grown : Tree}

/-- A walk along two paths continues where the first one ends. -/
theorem Tree.walk_append (tree : Tree) {first : List String} (nonempty : first ≠ [])
    (place : Option Quark) (second : List String) :
    tree.walk place (first ++ second) =
      (tree.walk place first).bind fun quark => tree.walk (some quark) second := by
  induction first generalizing place with
  | nil => exact absurd rfl nonempty
  | cons name rest ih =>
      rw [List.cons_append, Tree.walk, Tree.walk]
      cases tree.child place name with
      | none => rfl
      | some quark =>
          cases rest with
          | nil => rfl
          | cons next others => exact ih (by simp) (some quark)

theorem Tree.walk_singleton (tree : Tree) (place : Option Quark) (name : String) :
    tree.walk place [name] = tree.child place name := by
  cases found : tree.child place name <;> simp [Tree.walk, found]

/-- The last step of a walk from the top goes to a child of the place that it reached before. -/
theorem Tree.walk_concat {init : List String} {name : String} {quark : Quark}
    (reached : tree.walk none (init ++ [name]) = some quark) :
    ∃ place, tree.walk none init = place ∧ (place = none → init = []) ∧
      tree.child place name = some quark := by
  by_cases short : init = []
  · subst init
    exact ⟨none, rfl, fun _ => rfl, by rwa [List.nil_append, tree.walk_singleton] at reached⟩
  · rw [tree.walk_append short, Option.bind_eq_some_iff] at reached
    obtain ⟨parent, before, last⟩ := reached
    rw [tree.walk_singleton] at last
    exact ⟨some parent, before, by simp, last⟩

/-- The path that leads to an attribute is the one that the climb from it collects. -/
theorem Tree.Linked.climb_of_walk (linked : tree.Linked) (path : List String) :
    ∀ quark steps, tree.walk none path = some quark → quark < steps →
      tree.climb steps quark = path := by
  induction path using List.reverseRecOn with
  | nil => simp [Tree.walk]
  | append_singleton init name ih =>
      intro quark steps reached within
      obtain ⟨steps, rfl⟩ := Nat.exists_eq_add_one_of_ne_zero (Nat.ne_zero_of_lt within)
      obtain ⟨place, before, top, found⟩ := Tree.walk_concat reached
      have placed := (linked.child_iff place name quark).mp found
      obtain ⟨node, present, label⟩ := Option.map_eq_some_iff.mp placed
      simp only [Prod.mk.injEq] at label
      simp only [Tree.climb, present, label.1, label.2]
      cases place with
      | none => rw [top rfl, List.nil_append]
      | some parent =>
          have earlier := linked.parent_lt quark parent name placed
          change tree.climb steps parent ++ [name] = init ++ [name]
          rw [ih parent steps before (by lia)]

/-- The climb from an attribute collects a path that leads to it. -/
theorem Tree.Linked.walk_climb (linked : tree.Linked) (steps : Nat) :
    ∀ quark, tree.contains quark = true → quark < steps →
      tree.walk none (tree.climb steps quark) = some quark := by
  induction steps with
  | zero => intro quark _ within; exact absurd within (Nat.not_lt_zero _)
  | succ steps ih =>
      intro quark inside within
      obtain ⟨⟨place, name⟩, placed⟩ := Tree.contains_iff.mp inside
      have found := (linked.child_iff place name quark).mpr placed
      obtain ⟨node, present, label⟩ := Option.map_eq_some_iff.mp placed
      simp only [Prod.mk.injEq] at label
      simp only [Tree.climb, present, label.1, label.2]
      cases place with
      | none => simp [Tree.walk, found]
      | some parent =>
          have earlier := linked.parent_lt quark parent name placed
          have bound := Tree.label_lt placed
          have reached := ih parent (by rw [Tree.contains, decide_eq_true_eq]; lia) (by lia)
          have nonempty : tree.climb steps parent ≠ [] := by
            intro empty
            rw [empty] at reached
            cases reached
          change tree.walk none (tree.climb steps parent ++ [name]) = some quark
          rw [tree.walk_append nonempty, reached]
          simp [Tree.walk, found]

/-- A path finds an attribute exactly when it is the path of this attribute. -/
theorem Tree.Linked.find_none_iff (linked : tree.Linked) (path : List String) (quark : Quark) :
    tree.find none path = some quark ↔
      tree.contains quark = true ∧ tree.segmentsOf quark = path := by
  constructor
  · intro found
    have inside : tree.contains quark = true := by
      obtain rfl | ⟨init, name, rfl⟩ := List.eq_nil_or_concat path
      · cases found
      · rw [List.concat_eq_append] at found
        obtain ⟨place, _, _, last⟩ := Tree.walk_concat found
        exact Tree.contains_iff.mpr ⟨_, (linked.child_iff place name quark).mp last⟩
    refine ⟨inside, linked.climb_of_walk path quark _ found ?_⟩
    simpa [Tree.contains] using inside
  · rintro ⟨inside, rfl⟩
    exact linked.walk_climb _ quark inside (by simpa [Tree.contains] using inside)

/-- Attributes with the same path are the same. -/
theorem Tree.Linked.eq_of_segmentsOf (linked : tree.Linked) {quark other : Quark}
    (inside : tree.contains quark = true) (within : tree.contains other = true)
    (same : tree.segmentsOf quark = tree.segmentsOf other) : quark = other := by
  have found := (linked.find_none_iff _ quark).mpr ⟨inside, rfl⟩
  have also := (linked.find_none_iff _ other).mpr ⟨within, rfl⟩
  rw [same, also] at found
  exact (Option.some.inj found).symm

section Growth

/-- A walk along labels that are kept leads to the same attribute. -/
theorem Tree.Grows.walk (grows : tree.Grows grown) (linked : tree.Linked) (after : grown.Linked)
    {path : List String} {place : Option Quark} {quark : Quark}
    (reached : tree.walk place path = some quark) : grown.walk place path = some quark := by
  induction path generalizing place with
  | nil => exact reached
  | cons name rest ih =>
      rw [Tree.walk] at reached
      cases found : tree.child place name with
      | none => simp [found] at reached
      | some next =>
          have kept := (after.child_iff place name next).mpr
            (grows next _ ((linked.child_iff place name next).mp found))
          rw [Tree.walk, kept]
          simp only [found] at reached
          exact ih reached

theorem Tree.Grows.find (grows : tree.Grows grown) (linked : tree.Linked) (after : grown.Linked)
    {path : List String} {quark : Quark} (found : tree.find none path = some quark) :
    grown.find none path = some quark := grows.walk linked after found

/-- Growth changes the path of no attribute. -/
theorem Tree.Grows.segmentsOf (grows : tree.Grows grown) (linked : tree.Linked)
    (after : grown.Linked) {quark : Quark} (inside : tree.contains quark = true) :
    grown.segmentsOf quark = tree.segmentsOf quark := by
  have found := (linked.find_none_iff (tree.segmentsOf quark) quark).mpr ⟨inside, rfl⟩
  exact ((after.find_none_iff _ quark).mp (grows.find linked after found)).2

/-- What a grown tree finds among the old attributes was found before. -/
theorem Tree.Grows.find_iff (grows : tree.Grows grown) (linked : tree.Linked)
    (after : grown.Linked) {path : List String} {quark : Quark}
    (inside : tree.contains quark = true) :
    grown.find none path = some quark ↔ tree.find none path = some quark := by
  rw [linked.find_none_iff, after.find_none_iff, grows.segmentsOf linked after inside]
  simp [inside, grows.contains inside]

end Growth

section Resolve

/-- Resolving a child below a place of the tree succeeds, and the child is found afterwards. -/
theorem Tree.Linked.resolveChild_done (linked : tree.Linked) {place : Option Quark}
    (inside : tree.HasPlace place) (name : String) :
    ∃ quark grown, tree.resolveChild place name = .done quark grown ∧ grown.Linked ∧
      tree.Grows grown ∧ grown.child place name = some quark := by
  cases found : tree.child place name with
  | some quark =>
      exact ⟨quark, tree, by simp [Tree.resolveChild, found], linked, Tree.Grows.refl tree, found⟩
  | none =>
      have after := Tree.linked_addChild linked inside found
      refine ⟨tree.nodes.size, tree.addChild place name, ?_, after, tree.grows_addChild place name,
        (after.child_iff place name _).mpr ?_⟩
      · cases place with
        | none => simp [Tree.resolveChild, found]
        | some parent => simp [Tree.resolveChild, found, inside parent rfl]
      · rw [Tree.label_addChild, if_pos rfl]

/-- Resolving a path below a place of the tree succeeds when it names something, and the path leads
to the answer afterwards. -/
theorem Tree.Linked.resolve_done (linked : tree.Linked) {place : Option Quark}
    (inside : tree.HasPlace place) {path : List String} (names : place = none → path ≠ []) :
    ∃ quark grown, tree.resolve place path = .done quark grown ∧ grown.Linked ∧
      tree.Grows grown ∧ grown.walk place path = some quark := by
  induction path generalizing tree place with
  | nil =>
      cases place with
      | none => exact absurd rfl (names rfl)
      | some quark => exact ⟨quark, tree, rfl, linked, Tree.Grows.refl tree, rfl⟩
  | cons name rest ih =>
      obtain ⟨child, middle, first, between, step, found⟩ := linked.resolveChild_done inside name
      have placed := (between.child_iff place name child).mp found
      obtain ⟨quark, grown, second, after, more, reached⟩ := ih between
        (Tree.hasPlace_some (Tree.contains_iff.mpr ⟨_, placed⟩)) (by simp)
      refine ⟨quark, grown, ?_, after, step.trans more, ?_⟩
      · rw [Tree.resolve, first, Attempt.andThen_done, second]
      · have kept := (after.child_iff place name child).mpr (more child _ placed)
        rw [Tree.walk, kept]
        exact reached

/-- A path cannot be created without a name, or below an attribute that does not exist. -/
def Tree.pathFault (tree : Tree) : Option Quark → List String → Option HistoryError
  | none, [] => some (.unknownPath "")
  | none, _ :: _ => none
  | some _, [] => none
  | some parent, _ :: _ => if tree.contains parent then none else some (.unknownQuark parent)

/-- Resolving a path fails before anything is created, or it succeeds. -/
theorem Tree.Linked.resolve_cases (linked : tree.Linked) (place : Option Quark)
    (path : List String) :
    (∃ error, tree.pathFault place path = some error ∧
      tree.resolve place path = .fail error tree) ∨
    (tree.pathFault place path = none ∧ ∃ quark grown, tree.resolve place path = .done quark grown ∧
      grown.Linked ∧ tree.Grows grown ∧ grown.walk place path = some quark) := by
  cases place with
  | none =>
      cases path with
      | nil => exact Or.inl ⟨.unknownPath "", rfl, rfl⟩
      | cons name rest =>
          exact Or.inr ⟨rfl, linked.resolve_done tree.hasPlace_none (by simp)⟩
  | some parent =>
      cases path with
      | nil => exact Or.inr ⟨rfl, parent, tree, rfl, linked, Tree.Grows.refl tree, rfl⟩
      | cons name rest =>
          by_cases inside : tree.contains parent = true
          · refine Or.inr ⟨by simp [Tree.pathFault, inside], ?_⟩
            exact linked.resolve_done (Tree.hasPlace_some inside) (by simp)
          · have missing : tree.child (some parent) name = none := by
              have outside : tree.nodes.size ≤ parent := by
                simpa [Tree.contains] using inside
              simp [Tree.child, Tree.branches, Array.getElem?_eq_none outside, Branches.find,
                Branches.empty]
            refine Or.inl ⟨.unknownQuark parent, by simp [Tree.pathFault, inside], ?_⟩
            simp [Tree.resolve, Tree.resolveChild, missing, inside]

end Resolve

end Chronicle
