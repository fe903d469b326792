import Chronicle.Proofs.KnownPaths
import Chronicle.Proofs.TreeListings

/-!
Resolving a path follows the tree as far as it goes and creates the rest of the path as a chain of
new attributes. The paths of all other attributes stay as they are.
-/

namespace Chronicle

variable {tree grown : Tree} {place : Option Quark} {name : String} {names : List String}
  {quark : Quark}

section Chain

/-- New attributes hang one below the other, the first of them at a place. -/
def Tree.addChain (tree : Tree) (place : Option Quark) : List String → Tree
  | [] => tree
  | name :: rest => (tree.addChild place name).addChain (some tree.size) rest

/-- A tree has grown by a chain: its new attributes are numbered from its size on, the first hangs at
a place, and each other one hangs below the one before it. -/
structure Tree.Chained (tree grown : Tree) (place : Option Quark) (names : List String) : Prop where
  size : grown.size = tree.size + names.length
  kept : tree.Grows grown
  added : ∀ index name, names[index]? = some name →
    grown.label (tree.size + index) =
      some (if index = 0 then place else some (tree.size + index - 1), name)

theorem Tree.chained_addChain (tree : Tree) (place : Option Quark) (names : List String) :
    tree.Chained (tree.addChain place names) place names := by
  induction names generalizing tree place with
  | nil => exact ⟨rfl, Tree.Grows.refl tree, by simp⟩
  | cons name rest ih =>
      have others := ih (tree.addChild place name) (some tree.size)
      have next : (tree.addChild place name).size = tree.size + 1 := Tree.size_addChild
      constructor
      case size =>
        rw [Tree.addChain, others.size, next, List.length_cons]
        omega
      case kept => exact (tree.grows_addChild place name).trans others.kept
      case added =>
        intro index called listed
        cases index with
        | zero =>
            obtain rfl : name = called := by simpa using listed
            apply others.kept
            rw [Tree.label_addChild]
            exact if_pos rfl
        | succ index =>
            have later := others.added index called (by simpa using listed)
            have number : tree.size + (index + 1) = tree.size + 1 + index := by omega
            have above : (if index = 0 then some tree.size
                else some (tree.size + 1 + index - 1)) = some (tree.size + 1 + index - 1) := by
              by_cases first : index = 0 <;> simp [first]
            rw [next, above] at later
            rw [Tree.addChain, number, later, if_neg (Nat.succ_ne_zero index)]

/-- A grown tree has the old attributes and those of the chain. -/
theorem Tree.Chained.contains_iff (chained : tree.Chained grown place names) :
    grown.contains quark = true ↔
      tree.contains quark = true ∨ ∃ index < names.length, quark = tree.size + index := by
  have size : grown.nodes.size = tree.nodes.size + names.length := chained.size
  simp only [Tree.contains, decide_eq_true_eq, size, Tree.size]
  constructor
  · intro within
    by_cases old : quark < tree.nodes.size
    · exact Or.inl old
    · exact Or.inr ⟨quark - tree.nodes.size, by lia, by lia⟩
  · rintro (old | ⟨index, within, rfl⟩) <;> lia

/-- The path of a new attribute continues the route to the place by the names up to its own. -/
theorem Tree.Chained.segmentsOf (chained : tree.Chained grown place names)
    (linked : tree.Linked) (after : grown.Linked) (inside : tree.HasPlace place) :
    ∀ index, index < names.length →
      grown.segmentsOf (tree.size + index) = tree.route place ++ names.take (index + 1) := by
  intro index
  induction index with
  | zero =>
      intro within
      have label := chained.added 0 _ (List.getElem?_eq_getElem within)
      have found := (after.child_iff _ _ _).mpr label
      have still : grown.HasPlace place := fun quark same =>
        chained.kept.contains (inside quark same)
      rw [if_pos rfl] at found
      rw [after.segmentsOf_child still found, chained.kept.route linked after inside,
        ← List.take_append_getElem within]
      rfl
  | succ index ih =>
      intro within
      have label := chained.added (index + 1) _ (List.getElem?_eq_getElem within)
      have found := (after.child_iff _ _ _).mpr label
      have before : grown.contains (tree.size + index) = true :=
        chained.contains_iff.mpr (Or.inr ⟨index, by omega, rfl⟩)
      rw [if_neg (Nat.succ_ne_zero index)] at found
      rw [after.segmentsOf_child (Tree.hasPlace_some before) found, ← List.take_append_getElem within,
        ← List.append_assoc, ← ih (by omega)]
      rfl

/-- A new attribute has no children yet. -/
theorem Tree.Linked.child_addChild_last (linked : tree.Linked) (inside : tree.HasPlace place)
    (free : tree.child place name = none) (other : String) :
    (tree.addChild place name).child (some tree.size) other = none := by
  have after := Tree.linked_addChild linked inside free
  apply Option.eq_none_iff_forall_ne_some.mpr
  intro quark found
  have label := (after.child_iff _ _ _).mp found
  have above := after.parent_lt _ _ _ label
  have below : quark < (tree.addChild place name).size := Tree.label_lt label
  rw [Tree.size_addChild] at below
  lia

/-- A child whose name is free is created with the next quark. -/
theorem Tree.resolveChild_missing (inside : tree.HasPlace place)
    (free : tree.child place name = none) :
    tree.resolveChild place name = .done tree.size (tree.addChild place name) := by
  cases place with
  | none => simp only [Tree.resolveChild, free, Tree.size]
  | some parent => simp only [Tree.resolveChild, free, inside parent rfl, Tree.size, if_true]

/-- Where a name is free, a path that begins with it is created as a chain. -/
theorem Tree.Linked.resolve_missing (linked : tree.Linked) (inside : tree.HasPlace place)
    (free : tree.child place name = none) (rest : List String) :
    tree.resolve place (name :: rest) =
      .done (tree.size + rest.length) (tree.addChain place (name :: rest)) := by
  induction rest generalizing tree place name with
  | nil =>
      rw [Tree.resolve, Tree.resolveChild_missing inside free]
      rfl
  | cons next others ih =>
      have after := Tree.linked_addChild linked inside free
      have size : (tree.addChild place name).size = tree.size + 1 := Tree.size_addChild
      have present : (tree.addChild place name).HasPlace (some tree.size) := by
        apply Tree.hasPlace_some
        rw [Tree.contains, decide_eq_true_eq]
        exact Nat.lt_of_lt_of_eq (Nat.lt_succ_self _) size.symm
      have later := ih after present (linked.child_addChild_last inside free next)
      have last : tree.size + 1 + others.length = tree.size + (next :: others).length := by
        rw [List.length_cons]
        omega
      rw [Tree.resolve, Tree.resolveChild_missing inside free, Attempt.andThen_done, later, size,
        last]
      rfl

end Chain

section Walk

/-- A path is looked up below a place of the tree by walking from there. -/
theorem Tree.find_eq_walk (inside : tree.HasPlace place) (path : List String) :
    tree.find place path = tree.walk place path := by
  cases place with
  | none => rfl
  | some parent => rw [Tree.find, if_pos (inside parent rfl)]

/-- A path leads from a place to the attribute whose own path continues the route by it. -/
theorem Tree.Linked.find_iff_route (linked : tree.Linked) (inside : tree.HasPlace place)
    (path : List String) (quark : Quark) :
    tree.find place path = some quark ↔
      tree.contains quark = true ∧ tree.segmentsOf quark = tree.route place ++ path := by
  cases place with
  | none => exact linked.find_none_iff path quark
  | some parent =>
      rw [Tree.find_eq_walk inside]
      exact linked.walk_some_iff (inside parent rfl) path quark

/-- Resolving a path follows the attributes that are already there. -/
theorem Tree.resolve_append {known : List String} (reached : tree.walk place known = some quark)
    (rest : List String) :
    tree.resolve place (known ++ rest) = tree.resolve (some quark) rest := by
  induction known generalizing place with
  | nil =>
      rw [Tree.walk] at reached
      rw [reached, List.nil_append]
  | cons name others ih =>
      rw [Tree.walk] at reached
      cases found : tree.child place name with
      | none => simp [found] at reached
      | some next =>
          simp only [found] at reached
          have first : tree.resolveChild place name = .done next tree := by
            simp only [Tree.resolveChild, found]
          rw [List.cons_append, Tree.resolve, first, Attempt.andThen_done, ih reached]

/-- Resolving a path that leads to an attribute changes nothing. -/
theorem Tree.resolve_of_find (inside : tree.HasPlace place)
    (found : tree.find place names = some quark) :
    tree.resolve place names = .done quark tree := by
  rw [Tree.find_eq_walk inside] at found
  have kept := Tree.resolve_append found []
  rwa [List.append_nil] at kept

/-- A path that leads nowhere has a known beginning, at whose end the next name is free. -/
theorem Tree.walk_stops (missing : tree.walk place names = none)
    (named : place = none → names ≠ []) :
    ∃ known name rest, names = known ++ name :: rest ∧
      (known ≠ [] → (tree.walk place known).isSome = true) ∧
      tree.child (tree.walk place known) name = none := by
  induction names generalizing place with
  | nil => exact absurd rfl (named missing)
  | cons name rest ih =>
      cases found : tree.child place name with
      | none => exact ⟨[], name, rest, rfl, fun short => absurd rfl short, found⟩
      | some next =>
          have step (path : List String) :
              tree.walk place (name :: path) = tree.walk (some next) path := by
            rw [Tree.walk, found]
          rw [step] at missing
          obtain ⟨known, last, others, rfl, leads, free⟩ := ih missing (by simp)
          refine ⟨name :: known, last, others, rfl, fun _ => ?_, ?_⟩
          · rw [step]
            cases known with
            | nil => rfl
            | cons head tail => exact leads (by simp)
          · rw [step]
            exact free

/-- No walk passes a free name. -/
theorem Tree.walk_blocked {known : List String}
    (leads : known ≠ [] → (tree.walk place known).isSome = true)
    (free : tree.child (tree.walk place known) name = none) (rest : List String) :
    tree.walk place (known ++ name :: rest) = none := by
  by_cases short : known = []
  · subst short
    rw [Tree.walk] at free
    rw [List.nil_append, Tree.walk, free]
  · obtain ⟨quark, reached⟩ := Option.isSome_iff_exists.mp (leads short)
    rw [reached] at free
    rw [tree.walk_append short, reached, Option.bind_some, Tree.walk, free]

/-- Of a path that leads nowhere exactly the beginnings of its known part lead somewhere. -/
theorem Tree.walk_init_iff {known rest init : List String}
    (leads : known ≠ [] → (tree.walk place known).isSome = true)
    (free : tree.child (tree.walk place known) name = none) (nonempty : init ≠ [])
    (begins : init <+: known ++ name :: rest) :
    (tree.walk place init).isSome = true ↔ init <+: known := by
  constructor
  · intro reached
    rcases List.prefix_or_prefix_of_prefix begins (List.prefix_append known (name :: rest)) with
      short | ⟨more, rfl⟩
    · exact short
    · cases more with
      | nil => simp
      | cons next others =>
          -- a beginning that is longer than the known part goes on with the free name
          rw [List.prefix_append_right_inj, List.cons_prefix_cons] at begins
          obtain ⟨rfl, _⟩ := begins
          rw [Tree.walk_blocked leads free] at reached
          cases reached
  · rintro ⟨more, rfl⟩
    have reached := leads (by simp [nonempty])
    rw [tree.walk_append nonempty] at reached
    exact Option.isSome_of_isSome_bind reached

end Walk

/-- In a grown tree a path leads where it led before, or to a new attribute of the chain. -/
theorem Tree.Chained.find_iff (chained : tree.Chained grown place names) (linked : tree.Linked)
    (after : grown.Linked) (inside : tree.HasPlace place) {start : Option Quark}
    (present : tree.HasPlace start) (path : List String) (target : Quark) :
    grown.find start path = some target ↔
      tree.find start path = some target ∨ ∃ index < names.length,
        target = tree.size + index ∧
          tree.route start ++ path = tree.route place ++ names.take (index + 1) := by
  have still : grown.HasPlace start := fun quark same =>
    chained.kept.contains (present quark same)
  have segments {quark : Quark} (old : tree.contains quark = true) :
      grown.segmentsOf quark = tree.segmentsOf quark :=
    chained.kept.segmentsOf linked after old
  have fresh := chained.segmentsOf linked after inside
  rw [after.find_iff_route still, linked.find_iff_route present, chained.contains_iff,
    chained.kept.route linked after present]
  constructor
  · rintro ⟨old | ⟨index, within, rfl⟩, same⟩
    · exact Or.inl ⟨old, (segments old).symm.trans same⟩
    · exact Or.inr ⟨index, within, rfl, same.symm.trans (fresh index within)⟩
  · rintro (⟨old, same⟩ | ⟨index, within, rfl, same⟩)
    · exact ⟨Or.inl old, (segments old).trans same⟩
    · exact ⟨Or.inr ⟨index, within, rfl⟩, (fresh index within).trans same.symm⟩

/-- A growing tree keeps the name, the parent and the path of every attribute. -/
theorem Tree.Grows.keeps (grows : tree.Grows grown) (linked : tree.Linked) (after : grown.Linked)
    (inside : tree.contains quark = true) :
    grown.nameOf quark = tree.nameOf quark ∧ grown.parentOf quark = tree.parentOf quark ∧
      grown.segmentsOf quark = tree.segmentsOf quark := by
  obtain ⟨⟨parent, name⟩, label⟩ := Tree.contains_iff.mp inside
  obtain ⟨_, above, named⟩ := Tree.label_eq_some_iff.mp label
  obtain ⟨_, still, called⟩ := Tree.label_eq_some_iff.mp (grows quark _ label)
  exact ⟨called.trans named.symm, still.trans above.symm, grows.segmentsOf linked after inside⟩

/-- A path that leads nowhere has a known part, and resolving it creates all that follows as a chain
at the place to which the known part leads. -/
theorem Tree.Linked.resolve_unknown (linked : tree.Linked) {parent : Option Quark}
    (inside : tree.HasPlace parent) (named : parent = none → names ≠ [])
    (missing : tree.find parent names = none)
    (done : tree.resolve parent names = .done quark grown) :
    ∃ known created, names = known ++ created ∧ created ≠ [] ∧
      (tree.HasPlace (tree.find parent known) ∧
        tree.route (tree.find parent known) = tree.route parent ++ known) ∧
      (∀ init, init ≠ [] → init <+: names →
        ((tree.find parent init).isSome = true ↔ init <+: known)) ∧
      tree.Chained grown (tree.find parent known) created ∧ quark + 1 = grown.size := by
  have walks := tree.find_eq_walk inside
  rw [walks] at missing
  obtain ⟨known, name, rest, rfl, leads, free⟩ := Tree.walk_stops missing named
  have place : tree.HasPlace (tree.walk parent known) ∧
      tree.route (tree.walk parent known) = tree.route parent ++ known ∧
      tree.resolve parent (known ++ name :: rest) =
        tree.resolve (tree.walk parent known) (name :: rest) := by
    by_cases short : known = []
    · subst short
      exact ⟨inside, (List.append_nil _).symm, rfl⟩
    · obtain ⟨stop, reached⟩ := Option.isSome_iff_exists.mp (leads short)
      have found := (linked.find_iff_route inside known stop).mp ((walks known).trans reached)
      rw [reached]
      exact ⟨Tree.hasPlace_some found.1, found.2, Tree.resolve_append reached _⟩
  obtain ⟨present, route, continued⟩ := place
  have created := linked.resolve_missing present free rest
  rw [continued, created] at done
  obtain ⟨rfl, rfl⟩ := Attempt.done_inj.mp done
  have chained := tree.chained_addChain (tree.walk parent known) (name :: rest)
  refine ⟨known, name :: rest, rfl, by simp, ?_, ?_, ?_, ?_⟩
  · rw [walks]
    exact ⟨present, route⟩
  · intro init nonempty begins
    rw [walks]
    exact Tree.walk_init_iff leads free nonempty begins
  · rw [walks]
    exact chained
  · rw [chained.size, List.length_cons, Nat.add_assoc]

/-- Resolving a path below a place makes its beginnings known and nothing else. -/
theorem Tree.Linked.knows_resolve (linked : tree.Linked) (inside : tree.HasPlace place)
    {path : List String} (done : tree.resolve place names = .done quark grown) :
    grown.Knows path ↔ tree.Knows path ∨
      ∃ init, init ≠ [] ∧ init <+: names ∧ path = tree.route place ++ init := by
  have named : place = none → names ≠ [] := by
    rintro rfl rfl
    cases done
  obtain ⟨answer, next, again, after, grows, reached⟩ := linked.resolve_done inside named
  rw [done] at again
  obtain ⟨rfl, rfl⟩ := Attempt.done_inj.mp again
  constructor
  · rintro ⟨target, found⟩
    cases held : tree.find place names with
    | some answer =>
        rw [Tree.resolve_of_find inside held] at done
        obtain ⟨rfl, rfl⟩ := Attempt.done_inj.mp done
        exact Or.inl ⟨target, found⟩
    | none =>
        obtain ⟨known, created, rfl, nonempty, ⟨present, route⟩, _, chained, _⟩ :=
          linked.resolve_unknown inside named held done
        rcases (chained.find_iff linked after present tree.hasPlace_none path target).mp found with
          before | ⟨index, _, _, same⟩
        · exact Or.inl ⟨target, before⟩
        · rw [route, List.append_assoc] at same
          exact Or.inr ⟨known ++ created.take (index + 1), by simp [nonempty],
            (List.prefix_append_right_inj known).mpr (List.take_prefix _ _), same⟩
  · rintro (⟨target, found⟩ | ⟨init, nonempty, begins, rfl⟩)
    · exact ⟨target, grows.find linked after found⟩
    · have still : grown.HasPlace place := fun other same => grows.contains (inside other same)
      have found : grown.find place names = some quark :=
        (Tree.find_eq_walk still names).trans reached
      have whole : grown.Knows (tree.route place ++ names) := by
        rw [← grows.route linked after inside]
        exact ⟨quark, (after.find_none_iff _ quark).mpr
          ((after.find_iff_route still names quark).mp found)⟩
      exact whole.init (by simp [nonempty]) ((List.prefix_append_right_inj _).mpr begins)

/-- Resolving a path below a place of a reachable tree succeeds. A path that leads to an attribute
changes nothing. Of any other path the known part is kept and the rest is created as a chain, whose
attributes are all that can be found in addition. Afterwards the path leads to the answer, and
resolving it again changes nothing. -/
theorem Tree.resolve_creates_missing {tree : Tree} (reachable : tree.Reachable)
    {parent : Option Quark} (inside : tree.HasPlace parent) {names : List String}
    (named : parent = none → names ≠ []) :
    ∃ quark grown, tree.resolve parent names = .done quark grown ∧
      grown.segmentsOf quark = tree.route parent ++ names ∧
      (∀ held, tree.find parent names = some held → quark = held ∧ grown = tree) ∧
      (tree.find parent names = none → ∃ known created, names = known ++ created ∧ created ≠ [] ∧
        (∀ init, init ≠ [] → init <+: names →
          ((tree.find parent init).isSome = true ↔ init <+: known)) ∧
        tree.Chained grown (tree.find parent known) created ∧ quark + 1 = grown.size ∧
        ∀ start, tree.HasPlace start → ∀ path target,
          grown.find start path = some target ↔
            tree.find start path = some target ∨ ∃ index < created.length,
              target = tree.size + index ∧ tree.route start ++ path =
                tree.route parent ++ known ++ created.take (index + 1)) ∧
      (∀ old, tree.contains old = true → grown.nameOf old = tree.nameOf old ∧
        grown.parentOf old = tree.parentOf old ∧ grown.segmentsOf old = tree.segmentsOf old) ∧
      grown.find parent names = some quark ∧
      grown.resolve parent names = .done quark grown := by
  have linked := reachable.linked
  obtain ⟨quark, grown, done, after, grows, reached⟩ := linked.resolve_done inside named
  have still : grown.HasPlace parent := fun quark same => grows.contains (inside quark same)
  have found : grown.find parent names = some quark := by
    rw [Tree.find_eq_walk still, reached]
  have segments : grown.segmentsOf quark = tree.route parent ++ names := by
    rw [← grows.route linked after inside]
    exact ((after.find_iff_route still names quark).mp found).2
  have again := Tree.resolve_of_find still found
  refine ⟨quark, grown, done, segments, ?_, ?_, ?_, found, again⟩
  · intro held present
    exact Attempt.done_inj.mp (done.symm.trans (Tree.resolve_of_find inside present))
  · intro missing
    obtain ⟨known, created, split, nonempty, ⟨place, route⟩, inits, chained, last⟩ :=
      linked.resolve_unknown inside named missing done
    refine ⟨known, created, split, nonempty, inits, chained, last, ?_⟩
    intro start present path target
    rw [← route]
    exact chained.find_iff linked after place present path target
  · exact fun old before => grows.keeps linked after before

/-- The load at the top is known, and a disk with a load of its own is created below it. The path
repeats names that are used elsewhere, and these keep their attributes. -/
theorem Tree.resolve_creates_loads :
    let tree := (Tree.empty.callAll loadCalls).2
    tree.Reachable ∧ tree.size = 4 ∧ tree.find none ["load", "disk", "load"] = none ∧
      ∃ grown, tree.resolve none ["load", "disk", "load"] = .done 5 grown ∧ grown.size = 6 ∧
        grown.segmentsOf 5 = ["load", "disk", "load"] ∧
        grown.segmentsOf 3 = ["disk", "load"] ∧
        grown.find none ["load", "disk", "load"] = some 5 ∧
        grown.resolve none ["load", "disk", "load"] = .done 5 grown := by
  intro tree
  have reachable : tree.Reachable := Tree.Reachable.empty.callAll loadCalls
  have missing : tree.find none ["load", "disk", "load"] = none := by decide +kernel
  obtain ⟨quark, grown, done, segments, _, created, kept, found, again⟩ :=
    Tree.resolve_creates_missing reachable tree.hasPlace_none
      (fun _ => List.cons_ne_nil "load" ["disk", "load"])
  obtain ⟨known, chain, _, _, _, _, last, _⟩ := created missing
  have answer : (tree.resolve none ["load", "disk", "load"]).result = .ok 5 := by decide +kernel
  rw [done, Attempt.result_done, Except.ok.injEq] at answer
  subst answer
  have child : tree.segmentsOf 3 = ["disk", "load"] := by decide +kernel
  exact ⟨reachable, by decide +kernel, missing, grown, done, last.symm, segments,
    (kept 3 (by decide +kernel)).2.2.trans child, found, again⟩

end Chronicle
