import Chronicle.Proofs.SoundHistories

/-!
The writes once more, with a check before every access to an entry of a table and before every difference
of two numbers. A checked call breaks off, and has no outcome at all, where an index lies outside of its
table or a difference would be below zero. On a sound history no write breaks off, so that its checks
change nothing.
-/

namespace Chronicle

/-- The attempt of a checked call, if the call does not break off. -/
abbrev Checked (State Answer : Type) := Option (Attempt State Answer)

section Checked

variable {State Whole Answer Next Entry : Type}

/-- The next call starts from the answer and the state of the first one, unless that broke off or
failed. -/
def Checked.andThen (call : Checked State Answer) (next : Answer → State → Checked State Next) :
    Checked State Next :=
  call.bind fun attempt =>
    match attempt.result with
    | .ok answer => next answer attempt.state
    | .error error => some (.fail error attempt.state)

def Checked.within (call : Checked State Answer) (embed : State → Whole) : Checked Whole Answer :=
  call.map fun attempt => attempt.within embed

/-- Only an entry inside a table can be changed. -/
def Checked.modify (table : Array Entry) (index : Nat) (change : Entry → Entry) :
    Option (Array Entry) :=
  if inside : index < table.size then some (table.set index (change table[index]) inside) else none

/-- Only an entry inside a table can be replaced. -/
def Checked.set (table : Array Entry) (index : Nat) (entry : Entry) : Option (Array Entry) :=
  Checked.modify table index fun _ => entry

/-- Only a number that is not greater can be subtracted. -/
def Checked.sub (whole part : Nat) : Option Nat := if part ≤ whole then some (whole - part) else none

/-- Two calls in a row do not break off when the first one does not and the second one does not where
the first one leads. -/
theorem Checked.andThen_some {attempt : Attempt State Answer}
    {next : Answer → State → Checked State Next} {plain : Answer → State → Attempt State Next}
    (follows : ∀ answer, next answer attempt.state = some (plain answer attempt.state)) :
    Checked.andThen (some attempt) next = some (attempt.andThen plain) := by
  rw [Checked.andThen, Attempt.andThen, Option.bind_some]
  cases attempt.result with
  | ok answer => exact follows answer
  | error error => rfl

@[simp] theorem Checked.within_some (attempt : Attempt State Answer) (embed : State → Whole) :
    Checked.within (some attempt) embed = some (attempt.within embed) := rfl

theorem Checked.modify_inside {table : Array Entry} {index : Nat} (inside : index < table.size)
    (change : Entry → Entry) :
    Checked.modify table index change = some (table.modify index change) := by
  rw [Checked.modify, dif_pos inside, Option.some.injEq]
  apply Array.ext
  · rw [Array.size_set, Array.size_modify]
  · intro other _ _
    rw [Array.getElem_set, Array.getElem_modify]
    by_cases same : index = other
    · subst other
      simp
    · simp [same]

theorem Checked.set_inside {table : Array Entry} {index : Nat} (inside : index < table.size)
    (entry : Entry) : Checked.set table index entry = some (table.setIfInBounds index entry) := by
  rw [Checked.set, Checked.modify, dif_pos inside, Array.setIfInBounds, dif_pos inside]

theorem Checked.sub_le {whole part : Nat} (within : part ≤ whole) :
    Checked.sub whole part = some (whole - part) := if_pos within

end Checked

section Tree

variable {tree : Tree} {parent : Option Quark}

/-- The parent of a new child is accessed after the child has its node. -/
def Tree.checkedAddChild (tree : Tree) (parent : Option Quark) (name : String) : Option Tree :=
  let quark := tree.nodes.size
  let nodes := tree.nodes.push ⟨name, parent, .empty⟩
  match parent with
  | none => some ⟨nodes, tree.top.add name quark⟩
  | some place =>
      (Checked.modify nodes place fun node =>
        { node with children := node.children.add name quark }).map fun linked => ⟨linked, tree.top⟩

def Tree.checkedResolveChild (tree : Tree) (parent : Option Quark) (name : String) :
    Checked Tree Quark :=
  match tree.child parent name, parent with
  | some quark, _ => some (.done quark tree)
  | none, none => (tree.checkedAddChild none name).map (.done tree.nodes.size)
  | none, some place =>
      if tree.contains place then
        (tree.checkedAddChild (some place) name).map (.done tree.nodes.size)
      else some (.fail (.unknownQuark place) tree)

def Tree.checkedResolve (tree : Tree) (parent : Option Quark) : List String → Checked Tree Quark
  | [] =>
      match parent with
      | some quark => some (.done quark tree)
      | none => some (.fail (.unknownPath "") tree)
  | name :: rest =>
      (tree.checkedResolveChild parent name).andThen fun quark grown =>
        grown.checkedResolve (some quark) rest

theorem Tree.HasPlace.checkedAddChild (inside : tree.HasPlace parent) (name : String) :
    tree.checkedAddChild parent name = some (tree.addChild parent name) := by
  cases parent with
  | none => rfl
  | some place =>
      have bound : place < tree.nodes.size := by simpa [Tree.contains] using inside place rfl
      have pushed : place < (tree.nodes.push ⟨name, some place, .empty⟩).size := by
        rw [Array.size_push]
        lia
      simp only [Tree.checkedAddChild, Checked.modify_inside pushed, Option.map_some, Tree.addChild]

/-- A parent is looked for in the tree before it is accessed, so that this holds of any tree and of any
quark, from this tree or not. -/
theorem Tree.checkedResolveChild_eq (tree : Tree) (parent : Option Quark) (name : String) :
    tree.checkedResolveChild parent name = some (tree.resolveChild parent name) := by
  cases found : tree.child parent name with
  | some quark => simp only [Tree.checkedResolveChild, Tree.resolveChild, found]
  | none =>
      cases parent with
      | none =>
          simp only [Tree.checkedResolveChild, Tree.resolveChild, found,
            tree.hasPlace_none.checkedAddChild name, Option.map_some]
      | some place =>
          simp only [Tree.checkedResolveChild, Tree.resolveChild, found]
          by_cases inside : tree.contains place = true
          · simp only [inside, if_true, (Tree.hasPlace_some inside).checkedAddChild name,
              Option.map_some]
          · simp only [inside, Bool.false_eq_true, if_false]

theorem Tree.checkedResolve_eq (tree : Tree) (parent : Option Quark) (path : List String) :
    tree.checkedResolve parent path = some (tree.resolve parent path) := by
  induction path generalizing tree parent with
  | nil => cases parent <;> rfl
  | cons name rest ih =>
      rw [Tree.checkedResolve, tree.checkedResolveChild_eq, Tree.resolve]
      exact Checked.andThen_some fun quark => ih _ (some quark)

theorem Tree.Grows.size_le {grown : Tree} (grows : tree.Grows grown) : tree.size ≤ grown.size := by
  by_contra shrunk
  have inside : tree.contains grown.size = true := by
    rw [Tree.contains, decide_eq_true_eq]
    exact Nat.lt_of_not_le shrunk
  have still := grows.contains inside
  simp [Tree.contains, Tree.size] at still

end Tree

section Store

variable {store : Store} {quark : Quark} {time : Time}

/-- The ongoing table is accessed after both tables were widened. -/
def Store.checkedOpen (store : Store) (quark : Quark) (start : Time) (value : Value) :
    Checked Store Unit :=
  match store.openFault quark start with
  | some error => some (.fail error store)
  | none =>
      let wide := store.widen quark
      (Checked.set wide.ongoing quark (some ⟨start, value⟩)).map fun ongoing =>
        .done () { wide with ongoing := ongoing }

/-- Both tables are accessed, and neither was widened. -/
def Store.checkedClose (store : Store) (quark : Quark) (stop : Time) (value : Value) :
    Checked Store Interval :=
  match store.ongoingOf quark with
  | none => some (.fail (.notOngoing quark) store)
  | some ongoing =>
      match store.closeFault quark ongoing.start stop with
      | some error => some (.fail error store)
      | none =>
          let interval : Interval := ⟨quark, ongoing.start, stop, value⟩
          (Checked.set store.ongoing quark none).bind fun freed =>
            (Checked.modify store.closed quark fun row => row.push interval).map fun rows =>
              .done interval
                { closed := rows
                  ongoing := freed
                  closedCount := store.closedCount + 1 }

/-- The time just before a change is a difference. Amending accesses no entry by its index. -/
def Store.checkedRecord (store : Store) (quark : Quark) (time : Time) (value : Value) :
    Checked Store Unit :=
  match store.ongoingOf quark with
  | none => store.checkedOpen quark time value
  | some ongoing =>
      if ongoing.start = time then
        some ((store.amend quark value).andThen fun _ amended => .done () amended)
      else
        (Checked.sub time 1).bind fun before =>
          (store.checkedClose quark before ongoing.value).andThen fun _ shut =>
            shut.checkedOpen quark time value

def Store.checkedCloseAll (store : Store) (stop : Time) :
    List (Quark × Ongoing) → Checked Store Unit
  | [] => some (.done () store)
  | (quark, ongoing) :: rest =>
      (store.checkedClose quark stop ongoing.value).andThen fun _ shut =>
        shut.checkedCloseAll stop rest

theorem Store.Level.checkedOpen (level : store.Level) (quark : Quark) (start : Time)
    (value : Value) : store.checkedOpen quark start value = some (store.open quark start value) := by
  have inside : quark < (store.widen quark).ongoing.size := by
    rw [← store.level_widen level quark]
    exact store.lt_size_widen quark
  unfold Store.checkedOpen Store.open
  cases store.openFault quark start with
  | some error => rfl
  | none => simp only [Checked.set_inside inside, Option.map_some]

theorem Store.Level.checkedClose (level : store.Level) (quark : Quark) (stop : Time)
    (value : Value) : store.checkedClose quark stop value = some (store.close quark stop value) := by
  unfold Store.checkedClose Store.close
  cases held : store.ongoingOf quark with
  | none => rfl
  | some ongoing =>
      dsimp only
      cases store.closeFault quark ongoing.start stop with
      | some error => rfl
      | none =>
          simp only [Checked.set_inside (store.ongoingOf_lt held),
            Checked.modify_inside (level.inside held), Option.bind_some, Option.map_some]

/-- A close that is refused leaves the store, and any other keeps the length of both tables. -/
theorem Store.Level.close (level : store.Level) (quark : Quark) (stop : Time) (value : Value) :
    (store.close quark stop value).state.Level := by
  unfold Store.close
  split
  · exact level
  · dsimp only
    split
    · exact level
    · simpa only [Store.Level, Attempt.state_done, Array.size_modify, Array.size_setIfInBounds]
        using level

/-- An ongoing interval that started by a time, but not at it, started before it. Then the time is not
zero. -/
theorem Store.Level.checkedRecord (level : store.Level)
    (started : ∀ ongoing, store.ongoingOf quark = some ongoing → ongoing.start ≤ time)
    (value : Value) : store.checkedRecord quark time value = some (store.record quark time value) := by
  unfold Store.checkedRecord Store.record
  cases held : store.ongoingOf quark with
  | none => exact level.checkedOpen quark time value
  | some ongoing =>
      dsimp only
      split_ifs with same
      · rfl
      · have before := started ongoing held
        have positive : 1 ≤ time := by lia
        rw [Checked.sub_le positive, Option.bind_some, level.checkedClose]
        exact Checked.andThen_some fun _ =>
          (level.close quark (time - 1) ongoing.value).checkedOpen quark time value

theorem Store.Level.checkedCloseAll (level : store.Level) (stop : Time)
    (entries : List (Quark × Ongoing)) :
    store.checkedCloseAll stop entries = some (store.closeAll stop entries) := by
  induction entries generalizing store with
  | nil => rfl
  | cons entry rest ih =>
      obtain ⟨quark, ongoing⟩ := entry
      rw [Store.checkedCloseAll, level.checkedClose, Store.closeAll]
      exact Checked.andThen_some fun _ => ih (level.close quark stop ongoing.value)

end Store

section History

variable {history : History}

/-- The number of attributes that were created is a difference. -/
def History.checkedResolve (history : History) (parent : Option Quark) (path : List String) :
    Checked History Quark :=
  match history.tree.find parent path with
  | some quark => some (.done quark history)
  | none =>
      if history.closed then some (.fail .closedHistory history)
      else
        ((history.tree.checkedResolve parent path).within history.withTree).andThen
          fun quark resolved =>
            (Checked.sub resolved.tree.size history.tree.size).map fun _ => .done quark resolved

def History.checkedModify (history : History) (time : Time) (quark : Quark) (value : Value) :
    Checked History Unit :=
  match history.writeFault time with
  | some error => some (.fail error history)
  | none =>
      if history.tree.contains quark then
        ((history.store.checkedRecord quark time value).within history.withStore).andThen
          fun _ written => some (.done () (written.advance time))
      else some (.fail (.unknownQuark quark) history)

def History.checkedClose (history : History) (time : Time) : Checked History Nat :=
  match history.writeFault time with
  | some error => some (.fail error history)
  | none =>
      let ongoing := history.store.allOngoing
      ((history.store.checkedCloseAll time ongoing).within history.withStore).andThen
        fun _ written => some (.done ongoing.length { written.advance time with closed := true })

/-- Amending accesses no entry by its index. -/
def History.checkedWrite (history : History) : Write → Checked History Unit
  | .resolve parent path => (history.checkedResolve parent path).map Attempt.silent
  | .modify time quark value => history.checkedModify time quark value
  | .amend quark value => some (history.amend quark value)
  | .amendAt time quark value => some (history.amendAt time quark value)
  | .close stop => (history.checkedClose stop).map Attempt.silent

theorem History.Sound.checkedResolve (sound : history.Sound) (parent : Option Quark)
    (path : List String) :
    history.checkedResolve parent path = some (history.resolve parent path) := by
  unfold History.checkedResolve History.resolve
  cases history.tree.find parent path with
  | some quark => rfl
  | none =>
      dsimp only
      cases history.closed with
      | true => rfl
      | false =>
          simp only [Bool.false_eq_true, if_false, Tree.checkedResolve_eq, Checked.within_some]
          rcases sound.linked.resolve_cases parent path with
            ⟨error, _, failed⟩ | ⟨_, quark, grown, done, _, grows, _⟩
          · rw [failed]
            rfl
          · have counted : Checked.sub grown.size history.tree.size = _ :=
              Checked.sub_le grows.size_le
            rw [done]
            change (Checked.sub grown.size history.tree.size).map _ = _
            rw [counted]
            rfl

/-- An accepted time is not before the start of any ongoing interval. -/
theorem History.Sound.checkedModify (sound : history.Sound) (time : Time) (quark : Quark)
    (value : Value) :
    history.checkedModify time quark value = some (history.modify time quark value) := by
  unfold History.checkedModify History.modify
  cases fault : history.writeFault time with
  | some error => rfl
  | none =>
      rw [History.writeFault_eq] at fault
      obtain ⟨open?, order⟩ := Option.or_eq_none_iff.mp fault
      have current := sound.tiled.current (History.closed_of_closedFault open?) order quark
      dsimp only
      split_ifs
      · rw [sound.tiled.level.checkedRecord current.started, Checked.within_some]
        exact Checked.andThen_some fun _ => rfl
      · rfl

theorem History.Sound.checkedClose (sound : history.Sound) (stop : Time) :
    history.checkedClose stop = some (history.close stop) := by
  unfold History.checkedClose History.close
  cases history.writeFault stop with
  | some error => rfl
  | none =>
      dsimp only
      rw [sound.tiled.level.checkedCloseAll, Checked.within_some]
      exact Checked.andThen_some fun _ => rfl

/-- No write breaks off on a sound history. -/
theorem History.Sound.checkedWrite (sound : history.Sound) (write : Write) :
    history.checkedWrite write = some (history.write write) := by
  cases write with
  | resolve parent path =>
      rw [History.checkedWrite, sound.checkedResolve, Option.map_some, History.write]
  | modify time quark value => exact sound.checkedModify time quark value
  | amend quark value => rfl
  | amendAt time quark value => rfl
  | close stop => rw [History.checkedWrite, sound.checkedClose, Option.map_some, History.write]

end History

end Chronicle
