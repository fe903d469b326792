import Chronicle.Store.Basic

/-!
Answering from a store by bisection. The intervals of a quark ascend, so those that start by some
time, and those that stop before some time, come first in its row.
-/

namespace Chronicle

/-- The block from `base` shrinks to one position: its upper part is kept when the test holds where
that part begins, and its lower part otherwise. -/
def bisect (test : Nat → Bool) : Nat → Nat → Nat → Nat
  | 0, base, _ => base
  | steps + 1, base, size =>
      if size ≤ 1 then base
      else
        let half := size / 2
        bisect test steps (if test (base + half) then base + half else base) (size - half)

/-- The number of positions at which the test holds, if it holds on a first part of `size`
positions and nowhere else. -/
def boundary (test : Nat → Bool) (size : Nat) : Nat :=
  if size = 0 then 0
  else
    let last := bisect test size 0 size
    if test last then last + 1 else last

/-- The boundary of a row of intervals for a test of intervals. -/
def Store.boundaryOf (store : Store) (quark : Quark) (test : Interval → Bool) : Nat :=
  boundary (fun position => ((store.row quark)[position]?).any test) (store.row quark).size

/-- The closed interval that covers a time is the last one that starts by then. -/
def Store.intervalAt (store : Store) (quark : Quark) (time : Time) : Option Interval :=
  match store.boundaryOf quark fun interval => interval.start ≤ time with
  | 0 => none
  | position + 1 => ((store.row quark)[position]?).filter fun interval => interval.contains time

/-- A quark holds its ongoing value from the start of that on, before it the value of the covering
closed interval, and nothing elsewhere. -/
def Store.valueAt (store : Store) (quark : Quark) (time : Time) : Value :=
  let past := ((store.intervalAt quark time).map Interval.value).getD .null
  match store.ongoingOf quark with
  | some ongoing => if ongoing.start ≤ time then ongoing.value else past
  | none => past

/-- The positions of the closed intervals that share a time with a window; the first is included,
the second is not, and the second is never smaller. -/
def Store.windowBounds (store : Store) (quark : Quark) (first last : Time) : Nat × Nat :=
  let lower := store.boundaryOf quark fun interval => interval.stop < first
  let upper := store.boundaryOf quark fun interval => interval.start ≤ last
  (lower, max upper lower)

end Chronicle
