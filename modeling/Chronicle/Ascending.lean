/-!
Lists of numbers in ascending order.
-/

namespace Chronicle.Ascending

/-- The number goes before the first that is not smaller. -/
def insert (number : Nat) : List Nat → List Nat
  | [] => [number]
  | first :: rest =>
      if number ≤ first then number :: first :: rest else first :: insert number rest

/-- All numbers of a list in ascending order, as often as they occur. -/
def sort (numbers : List Nat) : List Nat := numbers.foldr insert []

end Chronicle.Ascending
