import Chronicle.CommandLine

/-!
What a command line guarantees of the options in it. Arguments are scanned one by one into a draft, and
each of them keeps the end of the draft a machine word; a draft that is finished fits together.
-/

namespace Chronicle

namespace CommandLine

/-- The end that a draft asks for is a machine word. -/
def Draft.Words (draft : Draft) : Prop := ∀ time ∈ draft.stop, time < wordBound

theorem lt_of_readTime {content : String} {time : Time} (read : readTime content = some time) :
    time < wordBound := by
  simp only [readTime, Option.ite_none_right_eq_some, Option.some.injEq] at read
  obtain ⟨_, small, rfl⟩ := read
  exact small

variable {draft changed : Draft} {scan next : Scan}

theorem Draft.Words.setEvents (words : draft.Words) {value : String}
    (set : draft.setEvents value = some changed) : changed.Words := by
  obtain ⟨_, _, rfl⟩ := Option.map_eq_some_iff.mp set
  exact words

/-- Only the option for the end changes it, and it reads a machine word. -/
theorem Draft.Words.set (words : draft.Words) {key : Key} {values : List String}
    (set : draft.set key values = some changed) : changed.Words := by
  unfold Draft.set at set
  -- The first case is the option for the end; the others leave it as it is, or refuse their values.
  split at set
  case h_1 value =>
    obtain ⟨stop, given, rfl⟩ := Option.map_eq_some_iff.mp set
    intro time held
    rw [once] at given
    split at given
    · cases given
    · obtain ⟨known, read, rfl⟩ := Option.map_eq_some_iff.mp given
      obtain rfl := Option.some.inj held
      exact lt_of_readTime read
  case h_8 first last =>
    obtain ⟨_, _, ranged⟩ := Option.bind_eq_some_iff.mp set
    obtain ⟨_, _, rfl⟩ := Option.map_eq_some_iff.mp ranged
    exact words
  case h_9 => cases set
  all_goals
    obtain ⟨_, _, rfl⟩ := Option.map_eq_some_iff.mp set
    exact words

end CommandLine

/-- A question about a range names a path, and no value at a time is asked for beside it. The end is a
machine word. -/
structure Options.Fits (options : Options) : Prop where
  named {bounds : Time × Time} (asked : options.bounds = some bounds) :
    ∃ path, options.path = some path
  alone {bounds : Time × Time} (asked : options.bounds = some bounds) : options.pointTime = none
  word {time : Time} (given : options.stop = some time) : time < wordBound

end Chronicle
