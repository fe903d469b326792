/-!
TOML documents and the rules by which keys and headers build them up. A table says how it came to
be, for that decides what may still be added to it.
-/

namespace Chronicle

/-- A table was opened by a header, implied by a longer header, or made by a dotted key. -/
inductive Toml.Origin where
  | header
  | implied
  | dotted
  deriving DecidableEq

/-- A document is a scalar, an array, a table written inline, which nothing can be added to, a table,
or a list of tables. -/
inductive Toml where
  | text (content : List Char)
  | integer (number : Int)
  | float (literal : List Char)
  | boolean (flag : Bool)
  | moment (literal : List Char)
  | array (items : List Toml)
  | inline (entries : List (String × Toml))
  | table (origin : Toml.Origin) (entries : List (String × Toml))
  | tables (elements : List (List (String × Toml)))

instance : Inhabited Toml := ⟨.inline []⟩

namespace Toml

/-- The entries of a table in the order in which they came. -/
abbrev Entries := List (String × Toml)

/-- The entry under a key is replaced. -/
def Entries.replace (entries : Entries) (key : String) (document : Toml) : Entries :=
  entries.map fun entry => if entry.1 = key then (key, document) else entry

/-- An action on the table at the end of a path. Tables that are missing on the way are made, and
the way through a list of tables leads to its last one. A dotted key passes through no table that a
header opened. -/
def within (dotted : Bool) (act : Origin → Entries → Option Entries) :
    List String → Origin → Entries → Option Entries
  | [], origin, entries => act origin entries
  | key :: rest, _, entries =>
      match entries.lookup key with
      | none =>
          let origin := if dotted then Origin.dotted else Origin.implied
          (within dotted act rest origin []).map fun inner =>
            entries ++ [(key, .table origin inner)]
      | some (.table origin inner) =>
          if dotted && origin = .header then none
          else
            (within dotted act rest origin inner).map fun changed =>
              entries.replace key (.table origin changed)
      | some (.tables elements) =>
          elements.getLast?.bind fun last =>
            (within dotted act rest .header last).map fun changed =>
              entries.replace key (.tables (elements.dropLast ++ [changed]))
      | some _ => none

/-- A key gets one document only. The table that a dotted key leads to has to be one that dotted
keys made. -/
def assign (entries : Entries) (path : List String) (key : String) (document : Toml) :
    Option Entries :=
  within true
    (fun origin found =>
      if decide (origin = .dotted) = path.isEmpty then none
      else if (found.lookup key).isSome then none
      else some (found ++ [(key, document)]))
    path .header entries

/-- A header opens a new table or one that was only implied so far. -/
def openTable (entries : Entries) (path : List String) (key : String) : Option Entries :=
  within false
    (fun _ found =>
      match found.lookup key with
      | none => some (found ++ [(key, .table .header [])])
      | some (.table .implied inner) => some (found.replace key (.table .header inner))
      | some _ => none)
    path .header entries

/-- A header in double brackets adds a table to a list of tables. -/
def openElement (entries : Entries) (path : List String) (key : String) : Option Entries :=
  within false
    (fun _ found =>
      match found.lookup key with
      | none => some (found ++ [(key, .tables [[]])])
      | some (.tables elements) => some (found.replace key (.tables (elements ++ [[]])))
      | some _ => none)
    path .header entries

/-- A key below a header is assigned in the table that the header opened. -/
def assignAt (entries : Entries) (place : List String) (path : List String) (key : String)
    (document : Toml) : Option Entries :=
  within false (fun _ found => assign found path key document) place .header entries

end Toml

end Chronicle
