/-!
Attribute paths as texts: segments joined by a separator. Empty segments do not count, so leading,
trailing and repeated separators change nothing.
-/

namespace Chronicle.Path

/-- The pieces between the separators, empty ones included. -/
def pieces (separator : Char) : List Char → List (List Char)
  | [] => [[]]
  | c :: rest =>
      if c = separator then [] :: pieces separator rest
      else
        match pieces separator rest with
        | [] => [[c]]
        | piece :: others => (c :: piece) :: others

/-- The segments of a path are its nonempty pieces. -/
def split (path : String) (separator : Char) : List String :=
  ((pieces separator path.toList).filter fun piece => !piece.isEmpty).map String.ofList

/-- The segments with one separator between neighbours. -/
def join (segments : List String) (separator : Char) : String :=
  String.ofList ([separator].intercalate (segments.map String.toList))

end Chronicle.Path
