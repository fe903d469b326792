import Chronicle.History.Query
import Chronicle.Proofs.AscendingLists
import Chronicle.Proofs.PathCreation
import Mathlib.Data.List.Forall2

/-!
Patterns with wildcards: the attributes that match are exactly those whose path fits the pattern
segment by segment, each once and in ascending order. A pattern without wildcards looks up a path.
-/

namespace Chronicle

variable {tree : Tree} {place : Option Quark} {segment : String} {pattern names : List String}
  {quark : Quark}

/-- A pattern fits the names of which each one equals the segment beside it, unless that segment is
the wildcard. There are as many names as segments. -/
def Fits (pattern names : List String) : Prop :=
  List.Forall₂ (fun segment name => segment = wildcard ∨ segment = name) pattern names

/-- One segment reaches the children whose name it fits. -/
theorem Tree.Listed.mem_reachOne (listed : tree.Listed) (linked : tree.Linked) :
    quark ∈ tree.reachOne place segment ↔
      ∃ name, (segment = wildcard ∨ segment = name) ∧ tree.child place name = some quark := by
  unfold Tree.reachOne
  by_cases any : segment = wildcard
  · simp [any, listed.mem_order linked]
  · simp [any]

/-- A pattern reaches the attributes to which a path leads that it fits. -/
theorem Tree.Listed.mem_reach (listed : tree.Listed) (linked : tree.Linked) :
    quark ∈ tree.reach place pattern ↔
      ∃ names, Fits pattern names ∧ tree.walk place names = some quark := by
  induction pattern generalizing place with
  | nil => simp [Tree.reach, Fits, Tree.walk]
  | cons segment rest ih =>
      simp only [Tree.reach, List.mem_flatMap, ih, listed.mem_reachOne linked]
      constructor
      · rintro ⟨child, ⟨name, fits, found⟩, names, others, reached⟩
        refine ⟨name :: names, List.Forall₂.cons fits others, ?_⟩
        rw [Tree.walk, found]
        exact reached
      · rintro ⟨_, fits, reached⟩
        obtain ⟨name, names, first, others, rfl⟩ := List.forall₂_cons_left_iff.mp fits
        rw [Tree.walk] at reached
        cases found : tree.child place name with
        | none => simp [found] at reached
        | some child =>
            simp only [found] at reached
            exact ⟨child, ⟨name, first, found⟩, names, others, reached⟩

/-- One segment reaches no child twice. -/
theorem Tree.Listed.nodup_reachOne (listed : tree.Listed) (place : Option Quark)
    (segment : String) : (tree.reachOne place segment).Nodup := by
  unfold Tree.reachOne
  split
  · exact (listed.ascending place).imp fun before => Nat.ne_of_lt before
  · cases tree.child place segment <;> simp

/-- A pattern reaches no attribute twice, since walks from different children do not meet. -/
theorem Tree.Listed.nodup_reach (listed : tree.Listed) (linked : tree.Linked)
    (place : Option Quark) (pattern : List String) : (tree.reach place pattern).Nodup := by
  induction pattern generalizing place with
  | nil => cases place <;> simp [Tree.reach]
  | cons segment rest ih =>
      rw [Tree.reach, List.nodup_flatMap]
      constructor
      · intro child _
        exact ih (some child)
      · refine (listed.nodup_reachOne place segment).imp_of_mem ?_
        intro first second here there apart target former latter
        obtain ⟨name, _, found⟩ := (listed.mem_reachOne linked).mp here
        obtain ⟨called, _, also⟩ := (listed.mem_reachOne linked).mp there
        obtain ⟨names, _, reached⟩ := (listed.mem_reach linked).mp former
        obtain ⟨others, _, again⟩ := (listed.mem_reach linked).mp latter
        exact apart (linked.child_unique found also reached again)

/-- Without a wildcard a pattern reaches what it leads to as a path. -/
theorem Tree.reach_literal (tree : Tree) (place : Option Quark)
    (literal : wildcard ∉ pattern) :
    tree.reach place pattern = (tree.walk place pattern).toList := by
  induction pattern generalizing place with
  | nil => rfl
  | cons segment rest ih =>
      obtain ⟨named, others⟩ := not_or.mp (fun member => literal (List.mem_cons.mpr member))
      rw [Tree.reach, Tree.reachOne, if_neg (Ne.symm named), Tree.walk]
      cases tree.child place segment with
      | none => rfl
      | some child => simp [ih (some child) others]

/-- In a reachable tree a pattern below a place matches exactly the attributes whose path continues
the route to the place by names that the pattern fits, in ascending order and each once. Nothing at
the top matches the empty pattern. A text without a wildcard matches the attribute that it leads to,
if there is one. -/
theorem Tree.matching_exact {tree : Tree} (reachable : tree.Reachable) :
    (∀ parent, tree.HasPlace parent → ∀ pattern,
      (tree.matching parent pattern).Pairwise (· < ·) ∧
      ∀ quark, quark ∈ tree.matching parent pattern ↔ tree.contains quark = true ∧
        ∃ names, tree.segmentsOf quark = tree.route parent ++ names ∧ Fits pattern names) ∧
    tree.matching none [] = [] ∧
    ∀ (history : History) (separator : Char) (text : String),
      history.tree = tree → wildcard ∉ Path.split text separator →
        history.matching separator text = (history.lookup separator text).toList := by
  have linked := reachable.linked
  have listed := reachable.listed
  refine ⟨?_, rfl, ?_⟩
  · intro parent inside pattern
    refine ⟨Ascending.pairwise_lt_sort (listed.nodup_reach linked parent pattern), ?_⟩
    intro quark
    have path (names : List String) : tree.walk parent names = some quark ↔
        tree.contains quark = true ∧ tree.segmentsOf quark = tree.route parent ++ names := by
      rw [← Tree.find_eq_walk inside]
      exact linked.find_iff_route inside names quark
    rw [Tree.matching, Ascending.mem_sort, listed.mem_reach linked]
    simp only [path]
    constructor
    · rintro ⟨names, fits, within, segments⟩
      exact ⟨within, names, segments, fits⟩
    · rintro ⟨within, names, segments, fits⟩
      exact ⟨names, fits, within, segments⟩
  · rintro history separator text rfl literal
    rw [History.matching, Tree.matching, Tree.reach_literal _ none literal, History.lookup, Tree.find]
    cases history.tree.walk none (Path.split text separator) with
    | none => rfl
    | some quark => rfl

/-- One slot of the first host is itself called like the wildcard. -/
def slotCalls : List TreeCall :=
  [.path none ["a", "10", "status"], .path none ["b", "10", "status"],
    .path none ["a", "*", "status"], .path none ["b", "10", "info"]]

/-- Below the first host the wildcard stands for both slots, and the status of the other host is found
under its text alone. -/
theorem Tree.matching_exact_of_slots :
    let tree := (Tree.empty.callAll slotCalls).2
    tree.Reachable ∧ tree.contains 0 = true ∧ 2 ∈ tree.matching (some 0) ["*", "status"] ∧
      7 ∈ tree.matching (some 0) ["*", "status"] ∧ 5 ∉ tree.matching (some 0) ["*", "status"] ∧
      wildcard ∉ Path.split "/b/10/status" '/' ∧
      (History.empty.withTree tree).matching '/' "/b/10/status" = [5] := by
  intro tree
  have reachable : tree.Reachable := Tree.Reachable.empty.callAll slotCalls
  have inside : tree.contains 0 = true := by decide +kernel
  obtain ⟨below, _, literal⟩ := Tree.matching_exact reachable
  obtain ⟨_, matched⟩ := below (some 0) (Tree.hasPlace_some inside) ["*", "status"]
  have fits (slot : String) : Fits ["*", "status"] [slot, "status"] :=
    List.Forall₂.cons (Or.inl rfl) (List.Forall₂.cons (Or.inr rfl) List.Forall₂.nil)
  have plain : wildcard ∉ Path.split "/b/10/status" '/' := by decide +kernel
  have holds (grown : Tree) : (History.empty.withTree grown).tree = grown := rfl
  have found : (History.empty.withTree tree).lookup '/' "/b/10/status" = some 5 := by
    decide +kernel
  refine ⟨reachable, inside, ?_, ?_, ?_, plain, ?_⟩
  · exact (matched 2).mpr ⟨by decide +kernel, ["10", "status"], by decide +kernel, fits "10"⟩
  · exact (matched 7).mpr ⟨by decide +kernel, ["*", "status"], by decide +kernel, fits "*"⟩
  · intro member
    obtain ⟨_, names, segments, _⟩ := (matched 5).mp member
    have other : tree.segmentsOf 5 = ["b", "10", "status"] := by decide +kernel
    have own : tree.route (some 0) = ["a"] := by decide +kernel
    rw [other, own] at segments
    simp at segments
  · exact (literal _ '/' "/b/10/status" (holds tree) plain).trans (congrArg Option.toList found)

end Chronicle
