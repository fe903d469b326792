import Chronicle.Proofs.PathCreation
import Chronicle.Proofs.SoundHistories

/-!
The calls that resolve a path to a quark. Below a place of the tree an answer is an attribute that
the path leads to. A parent that was never given out is refused, except by the calls that create
attributes, which give it back for the empty path while the history is open.
-/

namespace Chronicle

/-- A resolution asks for a child by its name, or for the attribute at a path from the top or below a
parent, with or without creating what is missing. A path may also be given as a text. -/
inductive Resolution where
  | child (parent : Option Quark) (name : String)
  | absolute (path : List String)
  | absoluteAdding (path : List String)
  | relative (parent : Quark) (path : List String)
  | relativeAdding (parent : Quark) (path : List String)
  | text (path : String)
  deriving DecidableEq

/-- The place from which a resolution starts. -/
def Resolution.parent : Resolution → Option Quark
  | .child parent _ => parent
  | .relative parent _ => some parent
  | .relativeAdding parent _ => some parent
  | _ => none

/-- The segments that a resolution follows from there. -/
def Resolution.path (separator : Char) : Resolution → List String
  | .child _ name => [name]
  | .absolute path => path
  | .absoluteAdding path => path
  | .relative _ path => path
  | .relativeAdding _ path => path
  | .text path => Path.split path separator

/-- Two kinds of resolutions only read. -/
def Resolution.creates : Resolution → Bool
  | .absolute _ => false
  | .relative _ _ => false
  | _ => true

def History.answer (history : History) (separator : Char) : Resolution → Attempt History Quark
  | .child parent name => history.resolve parent [name]
  | .absolute path => ⟨history.locate separator none path, history⟩
  | .absoluteAdding path => history.resolve none path
  | .relative parent path => ⟨history.locate separator (some parent) path, history⟩
  | .relativeAdding parent path => history.resolve (some parent) path
  | .text path => history.resolveText separator path

variable {history : History} {separator : Char} {parent quark : Quark} {path : List String}

/-- All resolutions are one of two calls with their own place and path. -/
theorem History.answer_eq (history : History) (separator : Char) (call : Resolution) :
    history.answer separator call =
      if call.creates then history.resolve call.parent (call.path separator)
      else ⟨history.locate separator call.parent (call.path separator), history⟩ := by
  cases call <;> rfl

theorem History.locate_eq_ok_iff {place : Option Quark} :
    history.locate separator place path = .ok quark ↔
      history.tree.find place path = some quark := by
  unfold History.locate
  cases history.tree.find place path <;> simp

/-- What a path leads to from a place of the tree is in the tree. -/
theorem Tree.Linked.contains_of_find {tree : Tree} (linked : tree.Linked) {place : Option Quark}
    (inside : tree.HasPlace place) (found : tree.find place path = some quark) :
    tree.contains quark = true :=
  ((linked.find_iff_route inside path quark).mp found).1

/-- An attribute that a path resolves to is found there afterwards. -/
theorem History.Sound.find_resolve (sound : history.Sound) {place : Option Quark}
    (inside : history.tree.HasPlace place)
    (answered : (history.resolve place path).result = .ok quark) :
    let after := (history.resolve place path).state.tree
    after.contains quark = true ∧ after.find place path = some quark := by
  rcases sound.resolve_cases place path with
    ⟨error, _, failed⟩ | ⟨_, answer, grown, done, linked, grows, reached⟩
  · rw [failed] at answered
    cases answered
  · rw [done] at answered
    obtain rfl : answer = quark := Except.ok.inj answered
    have still : grown.HasPlace place := fun other same => grows.contains (inside other same)
    have found : grown.find place path = some answer := (Tree.find_eq_walk still path).trans reached
    rw [done]
    exact ⟨linked.contains_of_find still found, found⟩

/-- Below a parent that was never given out no path leads anywhere. -/
theorem Tree.find_unissued {tree : Tree} (outside : tree.contains parent = false)
    (path : List String) : tree.find (some parent) path = none := by
  rw [Tree.find, outside]
  rfl

/-- A parent that was never given out is refused by the first name below it. The empty path does not
get so far. -/
theorem History.Sound.resolve_unissued (sound : history.Sound)
    (outside : history.tree.contains parent = false) (path : List String) :
    history.resolve (some parent) path =
      if history.closed then .fail .closedHistory history
      else if path = [] then .done parent history
      else .fail (.unknownQuark parent) history := by
  rw [History.resolve, Tree.find_unissued outside]
  cases history.closed with
  | true => rfl
  | false =>
      cases path with
      | nil => rfl
      | cons name rest =>
          have fault : history.tree.pathFault (some parent) (name :: rest) =
              some (.unknownQuark parent) := by
            rw [Tree.pathFault, outside]
            rfl
          rcases sound.linked.resolve_cases (some parent) (name :: rest) with
            ⟨error, refused, failed⟩ | ⟨granted, _⟩
          · rw [fault, Option.some.injEq] at refused
            simp only [failed, ← refused, reduceCtorEq, Bool.false_eq_true, if_false]
            rfl
          · rw [fault] at granted
            cases granted

/-- An attribute that a reachable history answers for a path below a place of its tree is in the tree
afterwards, and reading the path leads to it. A parent that was never given out never changes the
history. It is refused, and only a resolution that creates attributes gives it back for the empty path
while the history is open. -/
theorem History.resolution_known {history : History} (reachable : history.Reachable)
    (separator : Char) (call : Resolution) :
    let attempt := history.answer separator call
    (history.tree.HasPlace call.parent → ∀ quark, attempt.result = .ok quark →
      attempt.state.tree.contains quark = true ∧
        attempt.state.locate separator call.parent (call.path separator) = .ok quark) ∧
    ∀ parent, call.parent = some parent → history.tree.contains parent = false →
      attempt.state = history ∧
        attempt.result =
          if call.creates = false then
            .error (.unknownPath (Path.join (call.path separator) separator))
          else if history.closed then .error .closedHistory
          else if call.path separator = [] then .ok parent
          else .error (.unknownQuark parent) := by
  have sound := reachable.sound
  intro attempt
  simp only [attempt, history.answer_eq]
  refine ⟨?_, ?_⟩
  · intro inside quark answered
    cases creates : call.creates with
    | true =>
        rw [creates, if_pos rfl] at answered
        obtain ⟨present, found⟩ := sound.find_resolve inside answered
        rw [if_pos rfl]
        exact ⟨present, History.locate_eq_ok_iff.mpr found⟩
    | false =>
        rw [creates] at answered
        have found := History.locate_eq_ok_iff.mp answered
        exact ⟨sound.linked.contains_of_find inside found, answered⟩
  · intro parent same outside
    rw [same]
    cases creates : call.creates with
    | true =>
        rw [if_pos rfl, sound.resolve_unissued outside]
        cases history.closed with
        | true => exact ⟨rfl, rfl⟩
        | false => by_cases short : call.path separator = [] <;> simp [short]
    | false =>
        refine ⟨rfl, ?_⟩
        simp only [History.locate, Tree.find_unissued outside]
        rfl

/-- A load below the disk is created and found, and the parent 7 is refused with a name and given back
without one. -/
theorem History.resolution_known_of_disk :
    let history := History.empty.writeAll [.resolve none ["disk", "status"]]
    let created := history.answer '/' (.relativeAdding 0 ["load"])
    history.Reachable ∧ created.result = .ok 2 ∧ created.state.tree.contains 2 = true ∧
      created.state.locate '/' (some 0) ["load"] = .ok 2 ∧
      (history.answer '/' (.child (some 7) "load")).result = .error (.unknownQuark 7) ∧
      (history.answer '/' (.relativeAdding 7 [])).result = .ok 7 ∧
      (history.answer '/' (.relativeAdding 7 [])).state = history := by
  intro history created
  have reachable : history.Reachable := History.reachable_writeAll [.resolve none ["disk", "status"]]
  have answered : created.result = .ok 2 := by decide +kernel
  have inside : history.tree.HasPlace (some 0) := Tree.hasPlace_some (by decide +kernel)
  have outside : history.tree.contains 7 = false := by decide +kernel
  obtain ⟨known, _⟩ := History.resolution_known reachable '/' (.relativeAdding 0 ["load"])
  obtain ⟨present, located⟩ := known inside 2 answered
  obtain ⟨_, child⟩ := History.resolution_known reachable '/' (.child (some 7) "load")
  obtain ⟨_, empty⟩ := History.resolution_known reachable '/' (.relativeAdding 7 [])
  obtain ⟨same, back⟩ := empty 7 rfl outside
  exact ⟨reachable, answered, present, located, (child 7 rfl outside).2, back, same⟩

/-- The empty path below a parent that was never given out resolves to this parent on a new history,
where reading it finds nothing. -/
theorem History.resolution_of_unissued :
    let attempt := History.empty.answer '/' (.relativeAdding 7 [])
    History.empty.Reachable ∧ attempt.result = .ok 7 ∧ attempt.state.tree.contains 7 = false ∧
      attempt.state.locate '/' (some 7) [] = .error (.unknownPath "") :=
  ⟨Relation.ReflTransGen.refl, rfl, rfl, rfl⟩

end Chronicle
