import Chronicle.Path
import Mathlib.Data.List.Basic

/-!
Joined paths: joining whole segments and splitting the text give the segments back, so such paths
are joined to different texts.
-/

namespace Chronicle.Path

variable {separator : Char} {segments : List String}

/-- A whole segment is not empty and does not contain the separator. -/
def Whole (separator : Char) (segment : String) : Prop :=
  segment ≠ "" ∧ separator ∉ segment.toList

instance (separator : Char) (segment : String) : Decidable (Whole separator segment) :=
  inferInstanceAs (Decidable (_ ∧ _))

/-- The pieces are what the separator splits the text into. -/
theorem pieces_eq_splitOn (text : List Char) : pieces separator text = text.splitOn separator := by
  induction text with
  | nil => rfl
  | cons letter rest ih =>
      obtain ⟨piece, others, first⟩ :=
        List.exists_cons_of_ne_nil (List.splitOn_ne_nil separator rest)
      rw [pieces, ih, first]
      rw [List.splitOn] at first ⊢
      rw [List.splitOnP_cons_eq_if_modifyHead, first]
      by_cases same : letter = separator <;> simp [same]

/-- Splitting undoes the joining of whole segments. -/
theorem split_join (whole : ∀ segment ∈ segments, Whole separator segment) :
    split (join segments separator) separator = segments := by
  by_cases short : segments = []
  · subst short
    rfl
  · have free : ∀ text ∈ segments.map String.toList, separator ∉ text := by
      intro text member
      obtain ⟨segment, among, rfl⟩ := List.mem_map.mp member
      exact (whole segment among).2
    have filled : (segments.map String.toList).filter (fun piece => !piece.isEmpty) =
        segments.map String.toList := by
      apply List.filter_eq_self.mpr
      intro text member
      obtain ⟨segment, among, rfl⟩ := List.mem_map.mp member
      simpa using (whole segment among).1
    rw [split, join, String.toList_ofList, pieces_eq_splitOn,
      List.splitOn_intercalate separator free (by simpa using short), filled, List.map_map]
    simp [Function.comp_def]

/-- Two paths of whole segments that are joined to one text are the same path. -/
theorem join_injective {others : List String}
    (whole : ∀ segment ∈ segments, Whole separator segment)
    (wholeOthers : ∀ segment ∈ others, Whole separator segment)
    (same : join segments separator = join others separator) : segments = others := by
  rw [← split_join whole, same, split_join wholeOthers]

/-- A path splits at a separator into the segments before it and the segments after it. -/
theorem split_append (first second : String) :
    split (first ++ String.singleton separator ++ second) separator =
      split first separator ++ split second separator := by
  have letters : (first ++ String.singleton separator ++ second).toList =
      first.toList ++ separator :: second.toList := by simp
  rw [split, letters, pieces_eq_splitOn, List.splitOn_append_cons_self, List.filter_append,
    List.map_append, ← pieces_eq_splitOn, ← pieces_eq_splitOn]
  rfl

end Chronicle.Path
