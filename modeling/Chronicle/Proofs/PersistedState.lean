import Chronicle.Proofs.JsonRecords
import Chronicle.Proofs.ShuffledTrees
import Chronicle.Proofs.StoreCalls

/-!
What is kept as JSON is read back: a store, an export and a report as they were, and a tree as one
that no call and no question tells from it, in whatever order its tables were written.
-/

namespace Chronicle

namespace Json

theorem Layout.pretty_blank : Layout.pretty.Blank where
  line depth := by
    intro c member
    rcases List.mem_cons.mp member with rfl | space
    · rfl
    · rw [(List.mem_replicate.mp space).2]
      rfl
  gap := by
    intro c member
    rw [List.mem_singleton.mp member]
    rfl

/-- A content is read back from the text of its document. -/
theorem Faithful.read {A : Type} {encode : A → Json} {decode : Json → Option A} {content : A}
    (faithful : Faithful encode decode content) {layout : Layout} (blank : layout.Blank) :
    (Json.read (String.ofList ((encode content).write layout 0))).bind decode = some content := by
  rw [Json.read, String.toList_ofList, faithful.plain.readChars_write blank, Option.bind_some,
    faithful.decoded]

end Json

section Trees

/-- Entries with distinct names are put one behind the other. -/
theorem Branches.foldl_put {former entries : List (String × Quark)}
    (distinct : ((former ++ entries).map Prod.fst).Nodup) :
    entries.foldl Branches.put former = former ++ entries := by
  induction entries generalizing former with
  | nil => rw [List.foldl_nil, List.append_nil]
  | cons entry rest ih =>
      have split : former ++ entry :: rest = (former ++ [entry]) ++ rest := by simp
      -- No former entry has the name, so the entry replaces none of them.
      have fresh : former.lookup entry.1 = none := by
        apply List.lookup_eq_none_iff.mpr
        intro other member
        rw [List.map_append, List.nodup_append] at distinct
        have apart := distinct.2.2 other.1 (List.mem_map_of_mem member) entry.1 (by simp)
        simpa using Ne.symm apart
      rw [List.foldl_cons, Branches.put, fresh, split]
      apply ih
      rwa [split] at distinct

variable {tree : Tree}

theorem Quark.faithful_list {quarks : List Quark} {bound : Nat} (small : bound ≤ wordBound)
    (below : ∀ quark ∈ quarks, quark < bound) :
    Json.Faithful Quark.listToJson (Json.asList Json.asNatural) quarks :=
  Json.Faithful.list fun quark member =>
    Json.Faithful.natural (Nat.lt_of_lt_of_le (below quark member) small)

/-- A table with distinct names is decoded entry by entry. -/
theorem Branches.Tabled.faithful {branches : Branches} {bound : Nat}
    (tabled : branches.Tabled bound) (small : bound ≤ wordBound) :
    Json.Faithful (fun named => .object (named.map fun entry => (entry.1, .natural entry.2)))
      Branches.namedOfJson branches.named := by
  have table : Json.Faithful
      (fun named => .object (named.map fun entry => (entry.1, .natural entry.2)))
      (Json.asTable Json.asNatural) branches.named :=
    Json.Faithful.table fun entry member =>
      Json.Faithful.natural (Nat.lt_of_lt_of_le (tabled.named entry member) small)
  have entered : branches.named.foldl Branches.put [] = [] ++ branches.named :=
    Branches.foldl_put tabled.distinct
  refine ⟨table.plain, ?_⟩
  rw [Branches.namedOfJson, table.decoded, Option.map_some, entered, List.nil_append]

theorem Node.faithful {node : Node} {bound : Nat} (small : bound ≤ wordBound)
    (below : ∀ parent ∈ node.parent, parent < bound) (children : node.children.Tabled bound) :
    Json.Faithful Node.toJson Node.ofJson node := by
  have name := Json.Faithful.string node.name
  have above : Json.Faithful (Json.optional Json.natural) (Json.asOption Json.asNatural)
      node.parent :=
    Json.Faithful.optional nofun fun parent held =>
      Json.Faithful.natural (Nat.lt_of_lt_of_le (below parent held) small)
  have named := children.faithful small
  have order := Quark.faithful_list small children.order
  constructor
  case plain =>
    apply Json.Plain.object
    simp only [List.forall_mem_cons, List.not_mem_nil, false_implies, implies_true, and_true]
    exact ⟨name.plain, above.plain, named.plain, order.plain⟩
  case decoded =>
    rw [Node.ofJson, Node.toJson, Branches.namedToJson, Json.fields_all]
    case distinct => simp
    case named => rfl
    dsimp only [List.map]
    rw [name.required_bind, above.optional_bind, named.required_bind, order.required_bind]

/-- A tree with its tables in order is decoded node by node. -/
theorem Tree.Tabled.faithful (tabled : tree.Tabled) (small : tree.size ≤ wordBound) :
    Json.Faithful Tree.toJson Tree.ofJson tree := by
  have nodes : Json.Faithful (fun nodes => .list (nodes.map Node.toJson))
      (Json.asList Node.ofJson) tree.nodes.toList := by
    apply Json.Faithful.list
    intro node member
    obtain ⟨quark, found⟩ := List.mem_iff_getElem?.mp member
    rw [Array.getElem?_toList] at found
    have label : tree.label quark = some (node.parent, node.name) := by rw [Tree.label, found]; rfl
    apply Node.faithful small
    · intro parent held
      rw [Option.mem_def.mp held] at label
      have before := tabled.linked.parent_lt quark parent node.name label
      exact Nat.lt_trans before (Tree.label_lt label)
    · have children := tabled.branches (some quark)
      rwa [Tree.branches, found] at children
  have top : tree.top.Tabled tree.size := tabled.branches none
  have named := top.faithful small
  have order := Quark.faithful_list small top.order
  constructor
  case plain =>
    apply Json.Plain.object
    simp only [List.forall_mem_cons, List.not_mem_nil, false_implies, implies_true, and_true]
    exact ⟨nodes.plain, named.plain, order.plain⟩
  case decoded =>
    rw [Tree.ofJson, Tree.toJson, Branches.namedToJson, Json.fields_all]
    case distinct => simp
    case named => rfl
    dsimp only [List.map]
    rw [nodes.required_bind, named.required_bind, order.required_bind]

end Trees

/-- The numbers in a call are machine words. -/
def StoreCall.Words : StoreCall → Prop
  | .open quark time _ => quark < wordBound ∧ time < wordBound
  | .close quark time _ => quark < wordBound ∧ time < wordBound
  | .amend quark _ => quark < wordBound

/-- A reachable store comes from the empty one by calls with machine words. -/
inductive Store.Reachable : Store → Prop where
  | empty : Reachable .empty
  | call {store : Store} {call : StoreCall} (reachable : store.Reachable) (words : call.Words) :
      Reachable (store.call call)

section Stores

variable {store : Store} {quark : Quark}

theorem Store.words_empty : Store.empty.Words where
  closed := by simp [Store.empty]
  ongoing := by simp [Store.empty]

theorem Store.Words.ongoingOf (words : store.Words) {ongoing : Ongoing}
    (held : store.ongoingOf quark = some ongoing) : ongoing.start < wordBound := by
  have found : store.ongoing[quark]? = some (some ongoing) := Option.join_eq_some_iff.mp held
  exact words.ongoing _ (Array.mem_of_getElem? found) ongoing rfl

/-- New rows and slots are empty. -/
theorem Store.Words.widen (words : store.Words) (quark : Quark) : (store.widen quark).Words := by
  rw [Store.widen]
  split
  · constructor
    case closed =>
      intro row member
      rcases Array.mem_append.mp member with former | fresh
      · exact words.closed row former
      · simp [(Array.mem_replicate.mp fresh).2]
    case ongoing =>
      intro slot member
      rcases Array.mem_append.mp member with former | fresh
      · obtain ⟨position, bound, rfl⟩ := Array.mem_extract_iff_getElem.mp former
        exact words.ongoing _ (Array.getElem_mem _)
      · simp [(Array.mem_replicate.mp fresh).2]
  · exact words

/-- A slot takes an ongoing interval that starts at a machine word. -/
theorem Store.Words.setOngoing (words : store.Words) {slot : Option Ongoing}
    (word : ∀ ongoing ∈ slot, ongoing.start < wordBound) :
    ({ store with ongoing := store.ongoing.setIfInBounds quark slot } : Store).Words where
  closed := words.closed
  ongoing other member := by
    rcases Array.mem_or_eq_of_mem_setIfInBounds member with former | rfl
    · exact words.ongoing other former
    · exact word

/-- A closed interval of machine words comes last in its row. -/
theorem Store.Words.shut (words : store.Words) {interval : Interval} (word : interval.Words) :
    (store.shut interval).Words where
  closed row member := by
    obtain ⟨position, found⟩ := Array.mem_iff_getElem?.mp member
    rw [Store.shut, Array.getElem?_modify] at found
    split at found
    · obtain ⟨former, inside, rfl⟩ := Option.map_eq_some_iff.mp found
      intro other among
      rcases Array.mem_push.mp among with earlier | rfl
      · exact words.closed former (Array.mem_of_getElem? inside) other earlier
      · exact word
    · exact words.closed row (Array.mem_of_getElem? found)
  ongoing := by
    have idle : ∀ ongoing ∈ (none : Option Ongoing), ongoing.start < wordBound := by
      intro ongoing held
      cases held
    exact (words.setOngoing idle).ongoing

/-- Calls with machine words leave machine words. -/
theorem Store.Words.call (words : store.Words) {call : StoreCall} (word : call.Words) :
    (store.call call).Words := by
  cases call with
  | «open» quark start value =>
      rw [Store.call, Store.open]
      cases store.openFault quark start with
      | some error => exact words
      | none =>
          apply (words.widen quark).setOngoing
          rintro ongoing ⟨rfl⟩
          exact word.2
  | close quark stop value =>
      rw [Store.call, Store.close]
      cases held : store.ongoingOf quark with
      | none => exact words
      | some ongoing =>
          simp only
          cases store.closeFault quark ongoing.start stop with
          | some error => exact words
          | none =>
              have closed : Interval.Words ⟨quark, ongoing.start, stop, value⟩ :=
                ⟨word.1, words.ongoingOf held, word.2⟩
              exact words.shut closed
  | amend quark value =>
      rw [Store.call, Store.amend]
      cases held : store.ongoingOf quark with
      | none => exact words
      | some ongoing =>
          have start : ongoing.start < wordBound := words.ongoingOf held
          apply words.setOngoing
          rintro amended ⟨rfl⟩
          exact start

theorem Store.Reachable.words (reachable : store.Reachable) : store.Words := by
  induction reachable with
  | empty => exact Store.words_empty
  | call _ word ih => exact ih.call word

end Stores

/-- Trees, stores, exports and reports are read back from their JSON text. The copy of a reachable
tree answers all questions and all further calls as the tree does, in whatever order its tables were
written. A reachable store, an export and a report come back as they were, a report from its pretty
form too. -/
theorem persisted_survives :
    (∀ tree written : Tree, tree.Reachable → tree.Shuffled written → tree.size ≤ wordBound →
      ∃ copy, (Json.read written.toJson.compact).bind Tree.ofJson = some copy ∧ tree.Alike copy ∧
        ∀ calls, (copy.callAll calls).1 = (tree.callAll calls).1 ∧
          (tree.callAll calls).2.Alike (copy.callAll calls).2) ∧
    (∀ store : Store, store.Reachable → store.closedCount < wordBound →
      (Json.read store.toJson.compact).bind Store.ofJson = some store) ∧
    (∀ dump : Export, dump.Words →
      (Json.read dump.toJson.compact).bind Export.ofJson = some dump) ∧
    ∀ document : Report.Document, document.Valid →
      (Json.read document.toJson.compact).bind Report.Document.ofJson = some document ∧
        (Json.read document.write).bind Report.Document.ofJson = some document := by
  refine ⟨?_, ?_, ?_, ?_⟩
  · intro tree written reachable same small
    have tabled := reachable.tabled
    have agrees := same.agrees tabled
    have bounded : written.size ≤ wordBound := by rwa [same.size]
    refine ⟨written, ((tabled.shuffled same).faithful bounded).read Json.Layout.compact_blank,
      agrees.alike, fun calls => ?_⟩
    obtain ⟨answers, left⟩ := agrees.callAll calls
    exact ⟨answers, left.alike⟩
  · intro store reachable counted
    exact (Store.faithful reachable.words counted).read Json.Layout.compact_blank
  · intro dump words
    exact (Export.faithful words).read Json.Layout.compact_blank
  · intro document valid
    have faithful := Report.Document.faithful valid
    exact ⟨faithful.read Json.Layout.compact_blank, faithful.read Json.Layout.pretty_blank⟩

/-- The roots are written in the other order, and the text of the interval holds a quote, a line feed
and a character of two bytes. -/
theorem persisted_survives_of_disk :
    let tree := (Tree.empty.callAll [.path none ["disk", "status"], .child none "load"]).2
    let written : Tree := ⟨tree.nodes, ⟨tree.top.named.reverse, tree.top.order⟩⟩
    let store := (Store.empty.call (.open 1 2 .null)).call (.close 1 5 (.text "\"é\n"))
    let dump : Export := ⟨none, some 5, [⟨0, "disk"⟩, ⟨1, "disk/status"⟩], [⟨1, 2, 5, .long 7⟩]⟩
    let document : Report.Document :=
      ⟨"0.1.0", "estado-json-v1", ⟨1, 1, 0, 0, 2, 1, none, some 5⟩, none, some [],
        some ⟨4, [("disk", .null), ("disk/status", .int 3)]⟩⟩
    (∃ copy, (Json.read written.toJson.compact).bind Tree.ofJson = some copy ∧
      copy.find none ["disk", "status"] = some 1 ∧
      (copy.callAll [.path none ["load", "cpu"], .child (some 0) "status"]).1 = [.ok 3, .ok 1]) ∧
    (Json.read store.toJson.compact).bind Store.ofJson = some store ∧
    (Json.read dump.toJson.compact).bind Export.ofJson = some dump ∧
    (Json.read document.write).bind Report.Document.ofJson = some document := by
  intro tree written store dump document
  obtain ⟨trees, stores, exports, documents⟩ := persisted_survives
  have reachable : tree.Reachable :=
    (Tree.Reachable.empty.call (.path none ["disk", "status"])).call (.child none "load")
  have shuffled : tree.Shuffled written :=
    { label := fun _ => rfl
      order := fun place => by cases place <;> rfl
      named := fun place => by
        cases place with
        | none => exact List.reverse_perm tree.top.named
        | some parent => exact List.Perm.refl _ }
  have opens : (StoreCall.open 1 2 .null).Words := ⟨by decide, by decide⟩
  have closes : (StoreCall.close 1 5 (.text "\"é\n")).Words := ⟨by decide, by decide⟩
  have kept : store.Reachable := (Store.Reachable.empty.call opens).call closes
  have words : dump.Words :=
    { startTime := nofun
      endTime := by rintro time ⟨rfl⟩; decide
      attributes := by decide
      intervals := List.forall_mem_singleton.mpr ⟨by decide, by decide, by decide⟩ }
  have summary : document.summary.Words :=
    { events := by decide
      modifications := by decide
      updates := by decide
      ignoredUpdates := by decide
      attributes := by decide
      intervals := by decide
      startTime := nofun
      endTime := by rintro time ⟨rfl⟩; decide }
  have valid : document.Valid :=
    { summary := summary
      point := nofun
      intervals := by rintro spans ⟨rfl⟩; exact nofun
      states := by rintro states ⟨rfl⟩; exact ⟨by decide, by decide +kernel⟩ }
  obtain ⟨copy, decoded, alike, answers⟩ := trees tree written reachable shuffled (by decide +kernel)
  refine ⟨⟨copy, decoded, ?_, ?_⟩, stores store kept (by decide +kernel), exports dump words,
    (documents document valid).2⟩
  · rw [alike.find]
    decide +kernel
  · rw [(answers _).1]
    decide +kernel

end Chronicle
