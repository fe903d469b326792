import Chronicle.Proofs.JsonForms
import Chronicle.Proofs.Snapshots
import Chronicle.Report.Document

/-!
Intervals, stores, exports and reports are decoded from their JSON form, field by field. The numbers
in them are machine words, and a field that is left out is decoded as absent.
-/

namespace Chronicle

namespace Json

/-- What is written of a content is a plain document, and the content is decoded from it. -/
structure Faithful {A : Type} (encode : A → Json) (decode : Json → Option A) (content : A) :
    Prop where
  plain : (encode content).Plain
  decoded : decode (encode content) = some content

/-- The fields of a record that have a content. -/
def present (entries : List (String × Option Json)) : List (String × Json) :=
  entries.filterMap fun entry => entry.2.map fun content => (entry.1, content)

/-- A record gives the content of a field, or does not name it. -/
def Given.ofOption : Option Json → Given
  | some content => .document content
  | none => .unnamed

@[simp] theorem Given.ofOption_some (content : Json) :
    Given.ofOption (some content) = .document content := rfl

section Records

variable {entries : List (String × Option Json)}

/-- The only field under a name is the one that was written. -/
theorem filter_present (distinct : (entries.map Prod.fst).Nodup) {entry : String × Option Json}
    (member : entry ∈ entries) :
    ((present entries).filter fun field => field.1 ∈ [entry.1]) =
      (entry.2.map fun content => (entry.1, content)).toList := by
  induction entries with
  | nil => cases member
  | cons first rest ih =>
      obtain ⟨fresh, others⟩ := List.nodup_cons.mp distinct
      have split : present (first :: rest) =
          (first.2.map fun content => (first.1, content)).toList ++ present rest := by
        cases content : first.2 <;> simp [present, content]
      rw [split, List.filter_append]
      rcases List.mem_cons.mp member with rfl | later
      · have none_later : ((present rest).filter fun field => field.1 ∈ [entry.1]) = [] := by
          apply List.filter_eq_nil_iff.mpr
          intro field among
          obtain ⟨other, inside, named⟩ := List.mem_filterMap.mp among
          obtain ⟨content, _, rfl⟩ := Option.map_eq_some_iff.mp named
          have apart : other.1 ≠ entry.1 := fun same =>
            fresh (same ▸ List.mem_map_of_mem inside)
          simpa using apart
        rw [none_later, List.append_nil]
        cases entry.2 <;> simp
      · have apart : first.1 ≠ entry.1 := fun same =>
          fresh (same ▸ List.mem_map_of_mem later)
        rw [ih others later]
        cases first.2 <;> simp [apart]

/-- A record with distinct names gives for each of them what was written under it. -/
theorem fields_present {names : List (List String)} (distinct : (entries.map Prod.fst).Nodup)
    (named : names = entries.map fun entry => [entry.1]) :
    (object (present entries)).fields names =
      some (entries.map fun entry => Given.ofOption entry.2) := by
  rw [fields_object, named]
  apply mapM_map_of_mem
  intro entry member
  rw [givenIn, filter_present distinct member]
  cases entry.2 <;> rfl

/-- A record in which no field is left out gives all its contents. -/
theorem fields_all {names : List (List String)} {fields : List (String × Json)}
    (distinct : (fields.map Prod.fst).Nodup) (named : names = fields.map fun field => [field.1]) :
    (object fields).fields names = some (fields.map fun field => .document field.2) := by
  let entries := fields.map fun field => (field.1, some field.2)
  have all : present entries = fields := by
    simp [present, entries, List.filterMap_map]
  have found : (object (present entries)).fields names =
      some (entries.map fun entry => Given.ofOption entry.2) := by
    apply fields_present
    · simpa [entries, Function.comp_def] using distinct
    · simpa [entries, Function.comp_def] using named
  rw [all] at found
  rw [found, List.map_map]
  rfl

theorem Plain.object_present
    (plain : ∀ entry ∈ entries, ∀ content ∈ entry.2, content.Plain) :
    (Json.object (present entries)).Plain := by
  apply Plain.object
  intro field member
  obtain ⟨entry, inside, named⟩ := List.mem_filterMap.mp member
  obtain ⟨content, given, rfl⟩ := Option.map_eq_some_iff.mp named
  exact plain entry inside content given

end Records

section Contents

variable {A : Type} {encode : A → Json} {decode : Json → Option A}

/-- A field that has to be there is decoded to what was written. -/
theorem Faithful.required_bind {B : Type} {content : A} (faithful : Faithful encode decode content)
    (next : A → Option B) :
    ((Given.document (encode content)).required decode >>= next) = next content := by
  rw [Given.required, faithful.decoded]
  rfl

theorem Faithful.natural {number : Nat} (word : number < wordBound) :
    Faithful Json.natural asNatural number where
  plain := Plain.integer number
  decoded := asNatural_natural word

theorem Faithful.string (content : String) : Faithful Json.string asString content where
  plain := Plain.string content
  decoded := asString_string content

/-- A list is decoded item by item. -/
theorem Faithful.list {items : List A} (each : ∀ item ∈ items, Faithful encode decode item) :
    Faithful (fun items => Json.list (items.map encode)) (asList decode) items where
  plain := by
    apply Plain.list
    intro document member
    obtain ⟨item, inside, rfl⟩ := List.mem_map.mp member
    exact (each item inside).plain
  decoded := mapM_map_of_undoes fun item member => (each item member).decoded

/-- A table is decoded entry by entry. -/
theorem Faithful.table {entries : List (String × A)}
    (each : ∀ entry ∈ entries, Faithful encode decode entry.2) :
    Faithful (fun entries => Json.object (entries.map fun entry => (entry.1, encode entry.2)))
      (asTable decode) entries where
  plain := by
    apply Plain.object
    intro field member
    obtain ⟨entry, inside, rfl⟩ := List.mem_map.mp member
    exact (each entry inside).plain
  decoded := by
    have named : namedFields ((entries.map fun entry => (entry.1, encode entry.2)).map
        fun field => (letters field.1, field.2)) =
          some (entries.map fun entry => (entry.1, encode entry.2)) :=
      mapM_map_of_undoes fun field _ => by simp
    rw [object, asTable, named, Option.bind_some]
    apply mapM_map_of_undoes
    intro entry member
    rw [(each entry member).decoded, Option.map_some]

/-- What is not written as a null may be absent. -/
theorem Faithful.asOption {content : A} (faithful : Faithful encode decode content)
    (visible : encode content ≠ .null) :
    (encode content).asOption decode = some (some content) := by
  rw [Json.asOption, faithful.decoded, Option.map_some]
  exact visible

theorem Faithful.optional (visible : ∀ content, encode content ≠ .null) {content : Option A}
    (each : ∀ held ∈ content, Faithful encode decode held) :
    Faithful (Json.optional encode) (Json.asOption decode) content := by
  cases content with
  | none => exact ⟨Plain.null, rfl⟩
  | some held =>
      have faithful := each held rfl
      exact ⟨faithful.plain, faithful.asOption (visible held)⟩

/-- A field that may be null is decoded to what was written, and a null as absent. -/
theorem Faithful.optional_bind {B : Type} {content : Option A}
    (faithful : Faithful (Json.optional encode) (Json.asOption decode) content)
    (next : Option A → Option B) :
    ((Given.document (Json.optional encode content)).optional decode >>= next) = next content := by
  rw [Given.optional, faithful.decoded]
  rfl

theorem plain_of_mem_map {content : Option A}
    (each : ∀ held ∈ content, Faithful encode decode held) :
    ∀ document ∈ content.map encode, document.Plain := by
  intro document member
  obtain ⟨held, inside, rfl⟩ := Option.map_eq_some_iff.mp member
  exact (each held inside).plain

/-- A field that is left out is decoded as absent. -/
theorem ofOption_bind {B : Type} (visible : ∀ content, encode content ≠ .null)
    {content : Option A} (each : ∀ held ∈ content, Faithful encode decode held)
    (next : Option A → Option B) :
    ((Given.ofOption (content.map encode)).optional decode >>= next) = next content := by
  cases content with
  | none => rfl
  | some held =>
      rw [Option.map_some, Given.ofOption, Given.optional, (each held rfl).asOption (visible held)]
      rfl

end Contents

end Json

theorem Value.faithful (value : Value) : Json.Faithful Value.toJson Value.ofJson value where
  plain := value.plain_toJson
  decoded := value.ofJson_toJson

/-- The numbers of an interval are machine words. -/
structure Interval.Words (interval : Interval) : Prop where
  quark : interval.quark < wordBound
  start : interval.start < wordBound
  stop : interval.stop < wordBound

theorem Interval.faithful {interval : Interval} (words : interval.Words) :
    Json.Faithful Interval.toJson Interval.ofJson interval := by
  have quark := Json.Faithful.natural words.quark
  have start := Json.Faithful.natural words.start
  have stop := Json.Faithful.natural words.stop
  have value := interval.value.faithful
  constructor
  case plain =>
    apply Json.Plain.object
    simp only [List.forall_mem_cons, List.not_mem_nil, false_implies, implies_true, and_true]
    exact ⟨quark.plain, start.plain, stop.plain, value.plain⟩
  case decoded =>
    rw [Interval.ofJson, Interval.toJson, Json.fields_all]
    case distinct => simp
    case named => rfl
    dsimp only [List.map]
    rw [quark.required_bind, start.required_bind, stop.required_bind, value.required_bind]

theorem Interval.faithful_list {intervals : List Interval}
    (words : ∀ interval ∈ intervals, interval.Words) :
    Json.Faithful Interval.listToJson (Json.asList Interval.ofJson) intervals :=
  Json.Faithful.list fun interval member => Interval.faithful (words interval member)

theorem Ongoing.faithful {ongoing : Ongoing} (word : ongoing.start < wordBound) :
    Json.Faithful Ongoing.toJson Ongoing.ofJson ongoing := by
  have start := Json.Faithful.natural word
  have value := ongoing.value.faithful
  constructor
  case plain =>
    apply Json.Plain.object
    simp only [List.forall_mem_cons, List.not_mem_nil, false_implies, implies_true, and_true]
    exact ⟨start.plain, value.plain⟩
  case decoded =>
    rw [Ongoing.ofJson, Ongoing.toJson, Json.fields_all]
    case distinct => simp
    case named => rfl
    dsimp only [List.map]
    rw [start.required_bind, value.required_bind]

/-- The numbers of all intervals in a store are machine words. -/
structure Store.Words (store : Store) : Prop where
  closed : ∀ row ∈ store.closed, ∀ interval ∈ row, interval.Words
  ongoing : ∀ slot ∈ store.ongoing, ∀ ongoing ∈ slot, ongoing.start < wordBound

/-- The rows of a store are written as lists. -/
theorem Store.faithful {store : Store} (words : store.Words)
    (counted : store.closedCount < wordBound) :
    Json.Faithful Store.toJson Store.ofJson store := by
  let rows := store.closed.toList.map Array.toList
  have closed : Json.Faithful (fun rows => .list (rows.map Interval.listToJson))
      (Json.asList (Json.asList Interval.ofJson)) rows := by
    apply Json.Faithful.list
    intro intervals member
    obtain ⟨row, inside, rfl⟩ := List.mem_map.mp member
    apply Interval.faithful_list
    intro interval among
    exact words.closed row (Array.mem_toList_iff.mp inside) interval (Array.mem_toList_iff.mp among)
  have ongoing : Json.Faithful (fun slots => .list (slots.map (Json.optional Ongoing.toJson)))
      (Json.asList (Json.asOption Ongoing.ofJson)) store.ongoing.toList := by
    apply Json.Faithful.list
    intro slot member
    apply Json.Faithful.optional nofun
    intro ongoing held
    exact Ongoing.faithful (words.ongoing slot (Array.mem_toList_iff.mp member) ongoing held)
  have count := Json.Faithful.natural counted
  have written : store.toJson = .object
      [("closed", .list (rows.map Interval.listToJson)),
        ("ongoing", .list (store.ongoing.toList.map (Json.optional Ongoing.toJson))),
        ("closed_count", .natural store.closedCount)] := by
    rw [Store.toJson, List.map_map]
    rfl
  constructor
  case plain =>
    rw [written]
    apply Json.Plain.object
    simp only [List.forall_mem_cons, List.not_mem_nil, false_implies, implies_true, and_true]
    exact ⟨closed.plain, ongoing.plain, count.plain⟩
  case decoded =>
    rw [Store.ofJson, written, Json.fields_all]
    case distinct => simp
    case named => rfl
    dsimp only [List.map]
    rw [closed.required_bind, ongoing.required_bind, count.required_bind]
    simp [rows, Function.comp_def]

theorem ExportedAttribute.faithful {exported : ExportedAttribute}
    (word : exported.quark < wordBound) :
    Json.Faithful ExportedAttribute.toJson ExportedAttribute.ofJson exported := by
  have quark := Json.Faithful.natural word
  have path := Json.Faithful.string exported.path
  constructor
  case plain =>
    apply Json.Plain.object
    simp only [List.forall_mem_cons, List.not_mem_nil, false_implies, implies_true, and_true]
    exact ⟨quark.plain, path.plain⟩
  case decoded =>
    rw [ExportedAttribute.ofJson, ExportedAttribute.toJson, Json.fields_all]
    case distinct => simp
    case named => rfl
    dsimp only [List.map]
    rw [quark.required_bind, path.required_bind]

theorem Time.faithful_optional {time : Option Time} (word : ∀ known ∈ time, known < wordBound) :
    Json.Faithful (Json.optional Json.natural) (Json.asOption Json.asNatural) time :=
  Json.Faithful.optional nofun fun known held => Json.Faithful.natural (word known held)

/-- The numbers in an export are machine words. -/
structure Export.Words (dump : Export) : Prop where
  startTime : ∀ time ∈ dump.startTime, time < wordBound
  endTime : ∀ time ∈ dump.endTime, time < wordBound
  attributes : ∀ exported ∈ dump.attributes, exported.quark < wordBound
  intervals : ∀ interval ∈ dump.intervals, interval.Words

theorem Export.faithful {dump : Export} (words : dump.Words) :
    Json.Faithful Export.toJson Export.ofJson dump := by
  have startTime := Time.faithful_optional words.startTime
  have endTime := Time.faithful_optional words.endTime
  have attributes : Json.Faithful (fun listed => .list (listed.map ExportedAttribute.toJson))
      (Json.asList ExportedAttribute.ofJson) dump.attributes :=
    Json.Faithful.list fun exported member =>
      ExportedAttribute.faithful (words.attributes exported member)
  have intervals := Interval.faithful_list words.intervals
  constructor
  case plain =>
    apply Json.Plain.object
    simp only [List.forall_mem_cons, List.not_mem_nil, false_implies, implies_true, and_true]
    exact ⟨startTime.plain, endTime.plain, attributes.plain, intervals.plain⟩
  case decoded =>
    rw [Export.ofJson, Export.toJson, Json.fields_all]
    case distinct => simp
    case named => rfl
    dsimp only [List.map]
    rw [startTime.optional_bind, endTime.optional_bind, attributes.required_bind,
      intervals.required_bind]

/-- The numbers of a summary are machine words. -/
structure Summary.Words (summary : Summary) : Prop where
  events : summary.events < wordBound
  modifications : summary.modifications < wordBound
  updates : summary.updates < wordBound
  ignoredUpdates : summary.ignoredUpdates < wordBound
  attributes : summary.attributes < wordBound
  intervals : summary.intervals < wordBound
  startTime : ∀ time ∈ summary.startTime, time < wordBound
  endTime : ∀ time ∈ summary.endTime, time < wordBound

/-- The fields of a summary, of which the times may be left out. -/
theorem Summary.toJson_eq (summary : Summary) : summary.toJson = .object (Json.present
    [("events", some (.natural summary.events)),
      ("modifications", some (.natural summary.modifications)),
      ("updates", some (.natural summary.updates)),
      ("ignored_updates", some (.natural summary.ignoredUpdates)),
      ("attributes", some (.natural summary.attributes)),
      ("intervals", some (.natural summary.intervals)),
      ("start_time", summary.startTime.map Json.natural),
      ("end_time", summary.endTime.map Json.natural)]) := by
  rw [Summary.toJson]
  cases summary.startTime <;> cases summary.endTime <;> rfl

theorem Summary.faithful {summary : Summary} (words : summary.Words) :
    Json.Faithful Summary.toJson Summary.ofJson summary := by
  have events := Json.Faithful.natural words.events
  have modifications := Json.Faithful.natural words.modifications
  have updates := Json.Faithful.natural words.updates
  have ignoredUpdates := Json.Faithful.natural words.ignoredUpdates
  have attributes := Json.Faithful.natural words.attributes
  have intervals := Json.Faithful.natural words.intervals
  have startTime (time : Time) (held : time ∈ summary.startTime) :=
    Json.Faithful.natural (words.startTime time held)
  have endTime (time : Time) (held : time ∈ summary.endTime) :=
    Json.Faithful.natural (words.endTime time held)
  constructor
  case plain =>
    rw [Summary.toJson_eq]
    apply Json.Plain.object_present
    simp only [List.forall_mem_cons, List.not_mem_nil, false_implies, implies_true, and_true,
      Option.mem_some_iff, forall_eq']
    exact ⟨events.plain, modifications.plain, updates.plain, ignoredUpdates.plain,
      attributes.plain, intervals.plain, Json.plain_of_mem_map startTime,
      Json.plain_of_mem_map endTime⟩
  case decoded =>
    rw [Summary.ofJson, Summary.toJson_eq, Json.fields_present]
    case distinct => simp
    case named => rfl
    dsimp only [List.map, Json.Given.ofOption_some]
    rw [events.required_bind, modifications.required_bind, updates.required_bind,
      ignoredUpdates.required_bind, attributes.required_bind, intervals.required_bind,
      Json.ofOption_bind nofun startTime, Json.ofOption_bind nofun endTime]

/-- In strictly ascending order of the paths, entering every entry behind the others changes
nothing. -/
theorem Snapshot.insert_last {snapshot : Snapshot} {path : String}
    (last : ∀ other ∈ Snapshot.paths snapshot, other < path) (value : Value) :
    Snapshot.insert path value snapshot = snapshot ++ [(path, value)] := by
  induction snapshot with
  | nil => rfl
  | cons entry rest ih =>
      obtain ⟨first, held⟩ := entry
      obtain ⟨before, others⟩ := List.forall_mem_cons.mp last
      rw [Snapshot.insert, if_neg (not_lt_of_gt before), if_neg (ne_of_gt before), ih others]
      rfl

/-- A snapshot is the one that is made of its entries. -/
theorem Snapshot.ofList_self {snapshot : Snapshot}
    (ascends : (Snapshot.paths snapshot).Pairwise (· < ·)) :
    Snapshot.ofList snapshot = snapshot := by
  induction snapshot using List.reverseRecOn with
  | nil => rfl
  | append_singleton former entry ih =>
      obtain ⟨path, value⟩ := entry
      rw [Snapshot.paths, List.map_append, List.pairwise_append] at ascends
      obtain ⟨ordered, _, last⟩ := ascends
      rw [Snapshot.ofList_append_singleton, ih ordered]
      apply Snapshot.insert_last
      intro other member
      exact last other member path (List.mem_singleton_self path)

theorem Snapshot.faithful {snapshot : Snapshot}
    (ascends : (Snapshot.paths snapshot).Pairwise (· < ·)) :
    Json.Faithful Snapshot.toJson Snapshot.ofJson snapshot := by
  have table : Json.Faithful Snapshot.toJson (Json.asTable Value.ofJson) snapshot :=
    Json.Faithful.table fun entry _ => entry.2.faithful
  refine ⟨table.plain, ?_⟩
  rw [Snapshot.ofJson, table.decoded, Option.map_some, Snapshot.ofList_self ascends]

namespace Report

theorem Point.faithful {point : Point} (word : point.time < wordBound) :
    Json.Faithful Point.toJson Point.ofJson point := by
  have path := Json.Faithful.string point.path
  have time := Json.Faithful.natural word
  have value := point.value.faithful
  constructor
  case plain =>
    apply Json.Plain.object
    simp only [List.forall_mem_cons, List.not_mem_nil, false_implies, implies_true, and_true]
    exact ⟨path.plain, time.plain, value.plain⟩
  case decoded =>
    rw [Point.ofJson, Point.toJson, Json.fields_all]
    case distinct => simp
    case named => rfl
    dsimp only [List.map]
    rw [path.required_bind, time.required_bind, value.required_bind]

/-- The bounds of a span are machine words. -/
structure Span.Words (span : Span) : Prop where
  start : span.start < wordBound
  stop : span.stop < wordBound

theorem Span.faithful {span : Span} (words : span.Words) :
    Json.Faithful Span.toJson Span.ofJson span := by
  have path := Json.Faithful.string span.path
  have start := Json.Faithful.natural words.start
  have stop := Json.Faithful.natural words.stop
  have value := span.value.faithful
  constructor
  case plain =>
    apply Json.Plain.object
    simp only [List.forall_mem_cons, List.not_mem_nil, false_implies, implies_true, and_true]
    exact ⟨path.plain, start.plain, stop.plain, value.plain⟩
  case decoded =>
    rw [Span.ofJson, Span.toJson, Json.fields_all]
    case distinct => simp
    case named => rfl
    dsimp only [List.map]
    rw [path.required_bind, start.required_bind, stop.required_bind, value.required_bind]

/-- The time of states is a machine word, and every path comes once, in ascending order. -/
structure States.Valid (states : States) : Prop where
  time : states.time < wordBound
  ascends : (Snapshot.paths states.attributes).Pairwise (· < ·)

theorem States.faithful {states : States} (valid : states.Valid) :
    Json.Faithful States.toJson States.ofJson states := by
  have time := Json.Faithful.natural valid.time
  have attributes := Snapshot.faithful valid.ascends
  constructor
  case plain =>
    apply Json.Plain.object
    simp only [List.forall_mem_cons, List.not_mem_nil, false_implies, implies_true, and_true]
    exact ⟨time.plain, attributes.plain⟩
  case decoded =>
    rw [States.ofJson, States.toJson, Json.fields_all]
    case distinct => simp
    case named => rfl
    dsimp only [List.map]
    rw [time.required_bind, attributes.required_bind]

/-- The numbers in a document are machine words, and its states have every path once. -/
structure Document.Valid (document : Document) : Prop where
  summary : document.summary.Words
  point : ∀ point ∈ document.point, point.time < wordBound
  intervals : ∀ spans ∈ document.intervals, ∀ span ∈ spans, span.Words
  states : ∀ states ∈ document.states, states.Valid

/-- The fields of a document, of which the answers may be left out. -/
theorem Document.toJson_eq (document : Document) : document.toJson = .object (Json.present
    [("version", some (.string document.version)), ("format", some (.string document.format)),
      ("summary", some document.summary.toJson), ("point", document.point.map Point.toJson),
      ("intervals", document.intervals.map fun spans => .list (spans.map Span.toJson)),
      ("full_state", document.states.map States.toJson)]) := by
  rw [Document.toJson]
  cases document.point <;> cases document.intervals <;> cases document.states <;> rfl

theorem Document.faithful {document : Document} (valid : document.Valid) :
    Json.Faithful Document.toJson Document.ofJson document := by
  have version := Json.Faithful.string document.version
  have format := Json.Faithful.string document.format
  have summary := Summary.faithful valid.summary
  have point (point : Point) (held : point ∈ document.point) :=
    Point.faithful (valid.point point held)
  have intervals (spans : List Span) (held : spans ∈ document.intervals) :=
    Json.Faithful.list fun span member => Span.faithful (valid.intervals spans held span member)
  have states (states : States) (held : states ∈ document.states) :=
    States.faithful (valid.states states held)
  constructor
  case plain =>
    rw [Document.toJson_eq]
    apply Json.Plain.object_present
    simp only [List.forall_mem_cons, List.not_mem_nil, false_implies, implies_true, and_true,
      Option.mem_some_iff, forall_eq']
    exact ⟨version.plain, format.plain, summary.plain, Json.plain_of_mem_map point,
      Json.plain_of_mem_map intervals, Json.plain_of_mem_map states⟩
  case decoded =>
    rw [Document.ofJson, Document.toJson_eq, Json.fields_present]
    case distinct => simp
    case named => rfl
    dsimp only [List.map, Json.Given.ofOption_some]
    rw [version.required_bind, format.required_bind, summary.required_bind,
      Json.ofOption_bind nofun point, Json.ofOption_bind nofun intervals,
      Json.ofOption_bind nofun states]

end Report

end Chronicle
