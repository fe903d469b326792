import Chronicle.Directory
import Chronicle.Proofs.TreeLinks

/-!
Disks: files as a state that is read and written. A directory of texts is one of them. A command line
on a disk takes its settings and its events from the disk as it is found, and changes it at most by
writing the export of the history that it has closed.
-/

namespace Chronicle

/-- A disk says what a path holds, and what becomes of it when a text is written to a path. A text that
could be written is what the path holds afterwards. -/
structure Disk (World : Type) where
  read : World → String → Content
  write : World → String → String → Bool × World
  kept : ∀ world path text, (write world path text).1 = true →
    read (write world path text).2 path = .bytes (Text.toBytes text)

section Directory

variable {directory after : Directory} {name text : String}

/-- A name that was free is that of a file. -/
def Place.filled (name : String) (place : Place) : Place :=
  if place = .free name then .file name else place

/-- A part leads to a file that is there, or to a name that is not in use. -/
def Directory.Knows (directory : Directory) : Place → Prop
  | .file name => (directory.lookup name).isSome = true
  | .free name => directory.lookup name = none
  | _ => True

theorem Directory.knows_enter (directory : Directory) (place : Place) (part : String) :
    directory.Knows (directory.enter place part) := by
  cases place with
  | folder =>
      simp only [enter]
      split
      · trivial
      · split
        · trivial
        · split
          case isTrue held => exact held
          case isFalse missing => exact Option.not_isSome_iff_eq_none.mp missing
  | outside =>
      simp only [enter]
      split <;> trivial
  | _ => trivial

theorem Directory.knows_locate (directory : Directory) (path : String) :
    directory.Knows (directory.locate path) := by
  have known (parts : List String) (start : Place) (first : directory.Knows start) :
      directory.Knows (parts.foldl directory.enter start) := by
    induction parts generalizing start with
    | nil => exact first
    | cons part rest ih => exact ih _ (directory.knows_enter start part)
  unfold locate
  split
  · trivial
  · exact known _ _ trivial
  · exact known _ _ trivial

/-- A directory holds a text at a name, and otherwise what another one holds. -/
def Directory.Stores (after directory : Directory) (name text : String) : Prop :=
  ∀ other, after.lookup other = if other = name then some text else directory.lookup other

/-- A part of a path leads to the same place afterwards, but for the name that was free. -/
theorem Directory.enter_filled (stores : after.Stores directory name text) (place : Place)
    (part : String) :
    after.enter (place.filled name) part = (directory.enter place part).filled name := by
  cases place with
  | folder =>
      simp only [Place.filled, enter, reduceCtorEq, if_false, stores part]
      split
      · rfl
      · split
        · rfl
        · by_cases same : part = name
          · cases directory.lookup part <;> simp [same]
          · cases directory.lookup part <;> simp [same]
  | outside =>
      simp only [Place.filled, enter, reduceCtorEq, if_false]
      split <;> rfl
  | free other =>
      by_cases same : other = name <;> simp [Place.filled, enter, same]
  | _ => rfl

theorem Directory.locate_filled (stores : after.Stores directory name text) (path : String) :
    after.locate path = (directory.locate path).filled name := by
  have followed (parts : List String) (start : Place) :
      parts.foldl after.enter (start.filled name) =
        (parts.foldl directory.enter start).filled name := by
    induction parts generalizing start with
    | nil => rfl
    | cons part rest ih =>
        rw [List.foldl_cons, List.foldl_cons, Directory.enter_filled stores, ih]
  unfold locate
  split
  · rfl
  · exact followed _ .outside
  · exact followed _ .folder

/-- The text is what a path to its name holds afterwards. -/
theorem Directory.read_filled (stores : after.Stores directory name text) {path : String}
    (located : (directory.locate path).filled name = .file name) :
    after.read path = .bytes (Text.toBytes text) := by
  rw [← Directory.locate_filled stores] at located
  simp only [read, located, stores name, if_true]

theorem Directory.stores_replace {former : String} (held : directory.lookup name = some former) :
    Directory.Stores (directory.map fun entry => if entry.1 = name then (name, text) else entry)
      directory name text := by
  intro other
  rw [lookup_replace, held, Option.map_some]

theorem Directory.stores_append (missing : directory.lookup name = none) :
    Directory.Stores (directory ++ [(name, text)]) directory name text := by
  intro other
  rw [List.lookup_append, lookup_cons_eq_if, List.lookup_nil]
  by_cases same : other = name <;> simp [same, missing]

/-- A text that could be written to a path is read from it. -/
theorem Directory.kept (directory : Directory) (path text : String)
    (written : (directory.write path text).1 = true) :
    (directory.write path text).2.read path = .bytes (Text.toBytes text) := by
  have known := directory.knows_locate path
  unfold write at written ⊢
  cases place : directory.locate path with
  | file name =>
      rw [place] at known
      obtain ⟨former, held⟩ := Option.isSome_iff_exists.mp known
      exact Directory.read_filled (Directory.stores_replace held) (by simp [place, Place.filled])
  | free name =>
      rw [place] at known
      exact Directory.read_filled (Directory.stores_append known) (by simp [place, Place.filled])
  | _ => simp [place] at written

end Directory

/-- A directory is a disk. -/
def Directory.disk : Disk Directory := ⟨Directory.read, Directory.write, Directory.kept⟩

section Outcomes

variable {result : Except Failure String}

end Outcomes

namespace Disk

variable {World : Type}

/-- The actions on the files of a disk. -/
def files (disk : Disk World) : Files (StateM World) where
  read path := fun world => (disk.read world path, world)
  write path text := fun world => disk.write world path text

/-- The outcome of a command line on a disk, and the disk afterwards. -/
def execute (disk : Disk World) (world : World) (arguments : List String) : Outcome × World :=
  (Run.execute disk.files arguments).run world

/-- The configuration that the options name on a disk, or the default one. -/
def config (disk : Disk World) (world : World) (options : Options) : Except Failure Config :=
  match options.config with
  | none => .ok (Run.adjusted options .default)
  | some path => (Run.configOf path (disk.read world path)).map (Run.adjusted options)

/-- The closed history after all events of the file that the options name on a disk. -/
def closed (disk : Disk World) (world : World) (options : Options) : Except Failure Replay :=
  (disk.config world options).bind fun config =>
    Run.replayContent options config (disk.read world options.events)

/-- Whether the export is on the disk where the options ask for it, and the disk afterwards. -/
def dumped (disk : Disk World) (world : World) (options : Options) (closed : Replay) :
    Bool × World :=
  match options.dump with
  | none => (true, world)
  | some path => disk.write world path (Run.dumpText closed)

/-- A run ends without a closed history, without its export, or with what comes of the question. Only the
export changes the disk. -/
inductive Ends (disk : Disk World) (world : World) (options : Options) :
    Except Failure String → World → Prop
  | unclosed {failure : Failure} (failed : disk.closed world options = .error failure) :
      Ends disk world options (.error failure) world
  | undumped {closed : Replay} {path : String} (done : disk.closed world options = .ok closed)
      (asked : options.dump = some path)
      (refused : (disk.dumped world options closed).1 = false) :
      Ends disk world options (.error (.dumpFile path)) (disk.dumped world options closed).2
  | answered {closed : Replay} (done : disk.closed world options = .ok closed)
      (written : (disk.dumped world options closed).1 = true) :
      Ends disk world options (Run.output options closed) (disk.dumped world options closed).2

section Ends

variable {disk : Disk World} {world after : World} {options : Options} {result : Except Failure String}
  {closed : Replay}

end Ends

section Steps

variable {A B : Type} {first : ExceptT Failure (StateM World) A}
  {next : A → ExceptT Failure (StateM World) B} {world after : World}

end Steps

variable (disk : Disk World) (world : World) (options : Options)

end Disk

end Chronicle
