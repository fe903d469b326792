import Chronicle.History.Snapshot
import Chronicle.Json.Forms
import Chronicle.Replay

/-!
The JSON forms in which trees, stores, exports, snapshots and counters are kept. What is read back
is taken as it is: a tree or a store that was tampered with may contradict itself.
-/

namespace Chronicle

/-- A list of quarks. -/
def Quark.listToJson (quarks : List Quark) : Json := .list (quarks.map Json.natural)

/-- A later entry for a name replaces an earlier one. -/
def Branches.put (named : List (String × Quark)) (entry : String × Quark) :
    List (String × Quark) :=
  if (named.lookup entry.1).isSome then
    named.map fun held => if held.1 = entry.1 then entry else held
  else named ++ [entry]

def Branches.namedToJson (branches : Branches) : Json :=
  .object (branches.named.map fun entry => (entry.1, .natural entry.2))

def Branches.namedOfJson (document : Json) : Option (List (String × Quark)) :=
  (document.asTable Json.asNatural).map fun entries => entries.foldl Branches.put []

def Node.toJson (node : Node) : Json :=
  .object
    [("name", .string node.name), ("parent", Json.optional Json.natural node.parent),
      ("children", node.children.namedToJson),
      ("child_order", Quark.listToJson node.children.order)]

def Node.ofJson (document : Json) : Option Node :=
  match document.fields [["name"], ["parent"], ["children"], ["child_order"]] with
  | some [name, parent, named, order] => do
      let name ← name.required Json.asString
      let parent ← parent.optional Json.asNatural
      let named ← named.required Branches.namedOfJson
      let order ← order.required (Json.asList Json.asNatural)
      some ⟨name, parent, ⟨named, order⟩⟩
  | _ => none

def Tree.toJson (tree : Tree) : Json :=
  .object
    [("nodes", .list (tree.nodes.toList.map Node.toJson)), ("roots", tree.top.namedToJson),
      ("root_order", Quark.listToJson tree.top.order)]

def Tree.ofJson (document : Json) : Option Tree :=
  match document.fields [["nodes"], ["roots"], ["root_order"]] with
  | some [nodes, named, order] => do
      let nodes ← nodes.required (Json.asList Node.ofJson)
      let named ← named.required Branches.namedOfJson
      let order ← order.required (Json.asList Json.asNatural)
      some ⟨nodes.toArray, ⟨named, order⟩⟩
  | _ => none

def Interval.listToJson (intervals : List Interval) : Json :=
  .list (intervals.map Interval.toJson)

def Store.toJson (store : Store) : Json :=
  .object
    [("closed", .list (store.closed.toList.map fun row => Interval.listToJson row.toList)),
      ("ongoing", .list (store.ongoing.toList.map (Json.optional Ongoing.toJson))),
      ("closed_count", .natural store.closedCount)]

def Store.ofJson (document : Json) : Option Store :=
  match document.fields [["closed"], ["ongoing"], ["closed_count"]] with
  | some [closed, ongoing, count] => do
      let closed ← closed.required (Json.asList (Json.asList Interval.ofJson))
      let ongoing ← ongoing.required (Json.asList (Json.asOption Ongoing.ofJson))
      let count ← count.required Json.asNatural
      some ⟨(closed.map List.toArray).toArray, ongoing.toArray, count⟩
  | _ => none

def ExportedAttribute.toJson (exported : ExportedAttribute) : Json :=
  .object [("quark", .natural exported.quark), ("path", .string exported.path)]

def ExportedAttribute.ofJson (document : Json) : Option ExportedAttribute :=
  match document.fields [["quark"], ["path"]] with
  | some [quark, path] => do
      let quark ← quark.required Json.asNatural
      let path ← path.required Json.asString
      some ⟨quark, path⟩
  | _ => none

def Export.toJson (dump : Export) : Json :=
  .object
    [("start_time", Json.optional Json.natural dump.startTime),
      ("end_time", Json.optional Json.natural dump.endTime),
      ("attributes", .list (dump.attributes.map ExportedAttribute.toJson)),
      ("intervals", Interval.listToJson dump.intervals)]

def Export.ofJson (document : Json) : Option Export :=
  match document.fields [["start_time"], ["end_time"], ["attributes"], ["intervals"]] with
  | some [startTime, endTime, attributes, intervals] => do
      let startTime ← startTime.optional Json.asNatural
      let endTime ← endTime.optional Json.asNatural
      let attributes ← attributes.required (Json.asList ExportedAttribute.ofJson)
      let intervals ← intervals.required (Json.asList Interval.ofJson)
      some ⟨startTime, endTime, attributes, intervals⟩
  | _ => none

def Snapshot.toJson (snapshot : Snapshot) : Json :=
  .object (snapshot.map fun entry => (entry.1, entry.2.toJson))

def Snapshot.ofJson (document : Json) : Option Snapshot :=
  (document.asTable Value.ofJson).map Snapshot.ofList

def Counters.toJson (counters : Counters) : Json :=
  .object
    [("events", .natural counters.events), ("modifications", .natural counters.modifications),
      ("updates", .natural counters.updates),
      ("ignored_updates", .natural counters.ignoredUpdates),
      ("quarks", .natural counters.quarks), ("intervals", .natural counters.intervals),
      ("end_time", Json.optional Json.natural counters.endTime)]

def Counters.ofJson (document : Json) : Option Counters :=
  match document.fields
      [["events"], ["modifications"], ["updates"], ["ignored_updates"], ["quarks"],
        ["intervals"], ["end_time"]] with
  | some [events, modifications, updates, ignoredUpdates, quarks, intervals, endTime] => do
      let events ← events.required Json.asNatural
      let modifications ← modifications.required Json.asNatural
      let updates ← updates.required Json.asNatural
      let ignoredUpdates ← ignoredUpdates.required Json.asNatural
      let quarks ← quarks.required Json.asNatural
      let intervals ← intervals.required Json.asNatural
      let endTime ← endTime.optional Json.asNatural
      some ⟨events, modifications, updates, ignoredUpdates, quarks, intervals, endTime⟩
  | _ => none

end Chronicle
