import Chronicle.Ascending
import Mathlib.Data.List.Perm.Basic
import Mathlib.Data.List.Nodup

/-!
Lists in ascending order: inserting a number adds it and keeps the order.
-/

namespace Chronicle.Ascending

theorem perm_insert (number : Nat) (numbers : List Nat) :
    (insert number numbers).Perm (number :: numbers) := by
  induction numbers with
  | nil => exact List.Perm.refl _
  | cons first rest ih =>
      rw [insert]
      split_ifs
      · exact List.Perm.refl _
      · exact (ih.cons first).trans (List.Perm.swap number first rest)

theorem mem_insert {number other : Nat} {numbers : List Nat} :
    other ∈ insert number numbers ↔ other = number ∨ other ∈ numbers := by
  rw [(perm_insert number numbers).mem_iff, List.mem_cons]

theorem pairwise_insert {number : Nat} {numbers : List Nat} (sorted : numbers.Pairwise (· ≤ ·)) :
    (insert number numbers).Pairwise (· ≤ ·) := by
  induction numbers with
  | nil => simp [insert]
  | cons first rest ih =>
      obtain ⟨least, others⟩ := List.pairwise_cons.mp sorted
      rw [insert]
      split
      · rename_i before
        refine List.pairwise_cons.mpr ⟨fun other member => ?_, sorted⟩
        rcases List.mem_cons.mp member with rfl | later
        · exact before
        · exact Nat.le_trans before (least other later)
      · rename_i after
        refine List.pairwise_cons.mpr ⟨fun other member => ?_, ih others⟩
        rcases mem_insert.mp member with rfl | later
        · omega
        · exact least other later

/-- A number that exceeds none of the later numbers goes before them. -/
theorem insert_append {number : Nat} (numbers : List Nat) {later : List Nat}
    (least : ∀ other ∈ later, number ≤ other) :
    insert number (numbers ++ later) = insert number numbers ++ later := by
  induction numbers with
  | nil =>
      cases later with
      | nil => rfl
      | cons first rest => exact if_pos (least first List.mem_cons_self)
  | cons first rest ih =>
      rw [List.cons_append, insert, insert, ih]
      split_ifs <;> rfl

theorem insert_least {number : Nat} {numbers : List Nat}
    (least : ∀ other ∈ numbers, number ≤ other) : insert number numbers = number :: numbers :=
  insert_append [] least

theorem perm_sort (numbers : List Nat) : (sort numbers).Perm numbers := by
  induction numbers with
  | nil => exact List.Perm.refl _
  | cons first rest ih => exact (perm_insert first (sort rest)).trans (ih.cons first)

theorem mem_sort {number : Nat} {numbers : List Nat} : number ∈ sort numbers ↔ number ∈ numbers :=
  (perm_sort numbers).mem_iff

theorem pairwise_sort (numbers : List Nat) : (sort numbers).Pairwise (· ≤ ·) := by
  induction numbers with
  | nil => exact List.Pairwise.nil
  | cons first rest ih => exact pairwise_insert ih

/-- Different numbers are sorted strictly. -/
theorem pairwise_lt_sort {numbers : List Nat} (distinct : numbers.Nodup) :
    (sort numbers).Pairwise (· < ·) := by
  have apart : (sort numbers).Nodup := (perm_sort numbers).nodup_iff.mpr distinct
  refine ((pairwise_sort numbers).and apart).imp ?_
  intro first second order
  omega

/-- Strictly ascending lists with the same members are equal. -/
theorem eq_of_mem_iff {first second : List Nat} (former : first.Pairwise (· < ·))
    (latter : second.Pairwise (· < ·)) (same : ∀ number, number ∈ first ↔ number ∈ second) :
    first = second := by
  have perm : first.Perm second := by
    apply (List.perm_ext_iff_of_nodup _ _).mpr same
    · exact former.imp fun before => Nat.ne_of_lt before
    · exact latter.imp fun before => Nat.ne_of_lt before
  apply perm.eq_of_pairwise _ former latter
  intro low high _ _ before after
  omega

end Chronicle.Ascending
