import Chronicle.Run

/-!
A directory as a value: texts by file name, with the run of a command in it.
-/

namespace Chronicle

/-- A directory has files and no directories within. -/
abbrev Directory := List (String × String)

/-- A path leads to the directory itself, to some directory outside of it, to a file in it, to a name
that is free in it, or nowhere. -/
inductive Place where
  | folder
  | outside
  | file (name : String)
  | free (name : String)
  | nowhere
  deriving DecidableEq

/-- One further part of a path. Nothing outside of the directory is known but other
directories. -/
def Directory.enter (directory : Directory) (place : Place) (part : String) : Place :=
  match place with
  | .folder =>
      if part = "" ∨ part = "." then .folder
      else if part = ".." then .outside
      else if (directory.lookup part).isSome then .file part
      else .free part
  | .outside => if part = "" ∨ part = "." ∨ part = ".." then .outside else .nowhere
  | _ => .nowhere

/-- A path that begins with a slash starts outside of the directory. -/
def Directory.locate (directory : Directory) (path : String) : Place :=
  let parts := (Path.pieces '/' path.toList).map String.ofList
  match path.toList with
  | [] => .nowhere
  | '/' :: _ => parts.foldl directory.enter .outside
  | _ => parts.foldl directory.enter .folder

/-- A directory can be opened but not read. -/
def Directory.read (directory : Directory) (path : String) : Content :=
  match directory.locate path with
  | .folder => .unreadable
  | .outside => .unreadable
  | .file name =>
      match directory.lookup name with
      | some text => .bytes (Text.toBytes text)
      | none => .missing
  | _ => .missing

/-- A file takes a new text, and a free name becomes a file. -/
def Directory.write (directory : Directory) (path : String) (text : String) :
    Bool × Directory :=
  match directory.locate path with
  | .file name =>
      (true, directory.map fun entry => if entry.1 = name then (name, text) else entry)
  | .free name => (true, directory ++ [(name, text)])
  | _ => (false, directory)

/-- The actions on the files of a directory. -/
def Directory.files : Files (StateM Directory) where
  read path := fun directory => (directory.read path, directory)
  write path text := fun directory => directory.write path text

/-- The outcome of a command line in a directory, and the directory afterwards. -/
def Directory.execute (directory : Directory) (arguments : List String) :
    Outcome × Directory :=
  (Run.execute Directory.files arguments).run directory

/-- The files that are new or have another text. -/
def Directory.changes (before after : Directory) : Directory :=
  after.filter fun entry => before.lookup entry.1 ≠ some entry.2

end Chronicle
