import Chronicle.Proofs.PathCreation
import Chronicle.Proofs.ReachableHistories
import Chronicle.Proofs.ReplayEffects
import Chronicle.Proofs.Snapshots

/-!
Paths as texts: the text of an attribute whose segments are whole leads back to it, and a text leads
to the attribute that its segments name. How often a separator is repeated makes no difference.
-/

namespace Chronicle

variable {history : History} {separator : Char} {quark : Quark} {text : String}

section Lookup

/-- A text leads to the attribute whose path has the segments of the text. -/
theorem History.lookup_eq_some_iff (linked : history.tree.Linked) :
    history.lookup separator text = some quark ↔
      history.tree.contains quark = true ∧
        history.tree.segmentsOf quark = Path.split text separator :=
  linked.find_none_iff _ quark

/-- The joined path of whole segments leads back to its attribute. -/
theorem History.lookup_join (linked : history.tree.Linked)
    (inside : history.tree.contains quark = true)
    (whole : ∀ segment ∈ history.tree.segmentsOf quark, Path.Whole separator segment) :
    history.lookup separator (Path.join (history.tree.segmentsOf quark) separator) = some quark := by
  rw [History.lookup_eq_some_iff linked, Path.split_join whole]
  exact ⟨inside, rfl⟩

/-- The value at a path is the value of the attribute to which the path leads. -/
theorem History.valueAtPath_of_lookup (linked : history.tree.Linked)
    (found : history.lookup separator text = some quark) (time : Time) :
    history.valueAtPath separator text time = history.valueAt quark time := by
  have inside := ((History.lookup_eq_some_iff linked).mp found).1
  rw [History.valueAtPath, History.lookupOrFail, found, History.valueAt, if_pos inside]
  rfl

/-- Two texts that lead to attributes lead to the same one when they have the same segments. -/
theorem History.lookup_eq_iff {other : Quark} {more : String} (linked : history.tree.Linked)
    (found : history.lookup separator text = some quark)
    (also : history.lookup separator more = some other) :
    quark = other ↔ Path.split text separator = Path.split more separator := by
  obtain ⟨inside, segments⟩ := (History.lookup_eq_some_iff linked).mp found
  obtain ⟨within, names⟩ := (History.lookup_eq_some_iff linked).mp also
  constructor
  · rintro rfl
    exact segments.symm.trans names
  · intro same
    exact linked.eq_of_segmentsOf inside within (segments.trans (same.trans names.symm))

end Lookup

section Separators

/-- A separator in front, at the end or after another one does not change the segments. -/
theorem Path.split_separators (separator : Char) (first second : String) :
    let mark := String.singleton separator
    split (mark ++ first) separator = split first separator ∧
      split (first ++ mark) separator = split first separator ∧
      split (first ++ mark ++ mark ++ second) separator =
        split (first ++ mark ++ second) separator := by
  intro mark
  have blank : split "" separator = [] := rfl
  have front : split (mark ++ first) separator = split first separator := by
    have apart : split ("" ++ mark ++ first) separator = _ := split_append "" first
    rwa [String.empty_append, blank, List.nil_append] at apart
  have back (former : String) : split (former ++ mark) separator = split former separator := by
    have apart : split (former ++ mark ++ "") separator = _ := split_append former ""
    rwa [String.append_empty, blank, List.append_nil] at apart
  refine ⟨front, back first, ?_⟩
  rw [split_append, back, split_append]

end Separators

/-- A text with a segment resolves on an open history to an attribute, to which it leads
afterwards. -/
theorem History.Sound.resolveText_done (sound : history.Sound) (running : history.closed = false)
    (named : Path.split text separator ≠ []) :
    ∃ quark grown, history.resolveText separator text = .done quark (history.withTree grown) ∧
      (history.withTree grown).lookup separator text = some quark := by
  have granted : (Write.resolve none (Path.split text separator)).fault history = none :=
    (Write.resolve_fault running _).trans (if_neg named)
  rcases sound.resolve_cases none (Path.split text separator) with
    ⟨error, refused, _⟩ | ⟨_, quark, grown, done, _, _, reached⟩
  · rw [granted] at refused
    cases refused
  · exact ⟨quark, grown, done, reached⟩

/-- A text that leads to an attribute resolves to it and changes nothing. -/
theorem History.resolveText_of_lookup (found : history.lookup separator text = some quark) :
    history.resolveText separator text = .done quark history := by
  rw [History.resolveText, History.resolve, show history.tree.find none _ = some quark from found]

/-- An event is settled at the attribute to which its address resolves. -/
theorem Replay.apply_of_resolve {replay : Replay} {event : Event} {next : History}
    (sound : replay.history.Sound)
    (done : replay.history.resolve none (event.address.resolve replay.config.separator) =
      .done quark next) :
    replay.apply event = (replay.withHistory next).settle event quark := by
  rcases Replay.apply_cases sound event with
    ⟨error, refused, _⟩ | ⟨_, other, grown, resolved, _, _, _, settled⟩
  · have effect := sound.write_eq
      (.resolve none (event.address.resolve replay.config.separator))
    rw [refused, History.write, done] at effect
    cases congrArg Attempt.result effect
  · rw [done] at resolved
    obtain ⟨rfl, rfl⟩ := Attempt.done_inj.mp resolved
    exact settled

/-- In a reachable history the text of an attribute leads back to it when its segments are whole, and
gives its values. A text leads to an attribute whose path is the segments of the text joined, so two
texts lead to one attribute when they have the same segments, and further separators make no
difference. While the history is open, a text with a segment resolves to one attribute, whether it is
given as a text or as segments, directly or in an event, and leads to it afterwards. -/
theorem History.path_texts {history : History} (reachable : history.Reachable)
    (separator : Char) :
    (∀ quark, history.tree.contains quark = true →
      (∀ segment ∈ history.tree.segmentsOf quark, Path.Whole separator segment) →
      ∃ path, history.tree.pathOf quark separator = some path ∧
        history.lookup separator path = some quark ∧
        ∀ time, history.valueAtPath separator path time = history.valueAt quark time) ∧
    (∀ text quark, history.lookup separator text = some quark →
      history.tree.pathOf quark separator =
        some (Path.join (Path.split text separator) separator)) ∧
    (∀ first second quark other, history.lookup separator first = some quark →
      history.lookup separator second = some other →
      (quark = other ↔ Path.split first separator = Path.split second separator)) ∧
    (∀ first second, let mark := String.singleton separator
      history.lookup separator (mark ++ first) = history.lookup separator first ∧
        history.lookup separator (first ++ mark) = history.lookup separator first ∧
        history.lookup separator (first ++ mark ++ mark ++ second) =
          history.lookup separator (first ++ mark ++ second)) ∧
    ∀ text, Path.split text separator ≠ [] → history.closed = false →
      ∃ quark next, history.resolveText separator text = .done quark next ∧
        history.resolve none (Path.split text separator) = .done quark next ∧
        (∀ (replay : Replay) event, replay.history = history →
          replay.config.separator = separator →
          event.address = .joined text ∨ event.address = .segments (Path.split text separator) →
          replay.apply event = (replay.withHistory next).settle event quark ∧
            (replay.apply event).state.history.lookup separator text = some quark) ∧
        next.lookup separator text = some quark ∧
        next.resolveText separator text = .done quark next := by
  have sound := reachable.sound
  have linked := sound.linked
  refine ⟨?_, ?_, ?_, ?_, ?_⟩
  · intro quark inside whole
    have found := History.lookup_join linked inside whole
    exact ⟨_, Tree.pathOf_eq_some.mpr ⟨inside, rfl⟩, found,
      History.valueAtPath_of_lookup linked found⟩
  · intro text quark found
    obtain ⟨inside, segments⟩ := (History.lookup_eq_some_iff linked).mp found
    rw [Tree.pathOf_eq_some, segments]
    exact ⟨inside, rfl⟩
  · exact fun first second quark other => History.lookup_eq_iff linked
  · intro first second mark
    obtain ⟨front, back, twice⟩ := Path.split_separators separator first second
    simp only [History.lookup]
    rw [front, back, twice]
    exact ⟨rfl, rfl, rfl⟩
  · intro text named running
    obtain ⟨quark, grown, done, found⟩ := sound.resolveText_done running named
    refine ⟨quark, _, done, done, ?_, found, History.resolveText_of_lookup found⟩
    rintro replay event rfl rfl spelled
    have segments : event.address.resolve replay.config.separator =
        Path.split text replay.config.separator := by
      rcases spelled with joined | listed
      · rw [joined, Address.resolve]
      · rw [listed, Address.resolve]
    have settled := Replay.apply_of_resolve sound ((congrArg _ segments).trans done)
    refine ⟨settled, ?_⟩
    rw [settled, History.lookup, Replay.settle_tree]
    exact found

/-- The load of the disk is not known yet. -/
def loadEvent : Event := ⟨5, .joined "disk//load/", .modify, .long 7⟩

/-- The text of the status leads back to it, as the text with further separators does. The load is
created by a text or by an event that is given the text, and its text leads to it afterwards. -/
theorem History.path_texts_of_disk :
    let history := History.empty.writeAll openedWrites
    let replay : Replay := ⟨.default, history, .zero⟩
    history.Reachable ∧
      (∃ path, history.tree.pathOf 1 '/' = some path ∧ history.lookup '/' path = some 1 ∧
        history.valueAtPath '/' path 4 = .ok (.text "idle")) ∧
      history.lookup '/' "/disk/status" = history.lookup '/' "disk/status" ∧
      history.lookup '/' "disk//load/" = none ∧
      (history.resolveText '/' "disk//load/").result = .ok 2 ∧
      (replay.apply loadEvent).state.history.lookup '/' "disk//load/" = some 2 := by
  intro history replay
  have reachable : history.Reachable := History.reachable_writeAll openedWrites
  obtain ⟨back, _, _, marks, spellings⟩ := History.path_texts reachable '/'
  obtain ⟨path, text, found, values⟩ := back 1 (by decide +kernel) (by decide +kernel)
  have held : history.valueAt 1 4 = .ok (.text "idle") := by decide +kernel
  obtain ⟨quark, next, done, _, event, _, _⟩ :=
    spellings "disk//load/" (by decide +kernel) (by decide +kernel)
  have answer : (history.resolveText '/' "disk//load/").result = .ok 2 := by decide +kernel
  have same := answer
  rw [done, Attempt.result_done, Except.ok.injEq] at same
  subst same
  exact ⟨reachable, ⟨path, text, found, (values 4).trans held⟩, (marks "disk/status" "").1,
    by decide +kernel, answer, (event replay loadEvent rfl rfl (Or.inl rfl)).2⟩

end Chronicle
