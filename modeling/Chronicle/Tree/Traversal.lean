import Chronicle.Ascending
import Chronicle.Path
import Chronicle.Tree.Basic

/-!
Reading a tree: the way from the root to an attribute, the attributes below one, and the
attributes whose path fits a pattern with wildcards.
-/

namespace Chronicle

/-- The climb collects the names from the root down to a quark in at most the given steps. -/
def Tree.climb (tree : Tree) : Nat → Quark → List String
  | 0, _ => []
  | steps + 1, quark =>
      match tree.nodes[quark]? with
      | none => []
      | some node =>
          match node.parent with
          | none => [node.name]
          | some parent => tree.climb steps parent ++ [node.name]

/-- A chain of parents has at most as many members as the tree has nodes. -/
def Tree.segmentsOf (tree : Tree) (quark : Quark) : List String :=
  tree.climb tree.nodes.size quark

/-- The full path of an attribute as a text. -/
def Tree.pathOf (tree : Tree) (quark : Quark) (separator : Char) : Option String :=
  if tree.contains quark then some (Path.join (tree.segmentsOf quark) separator) else none

/-- Every child is directly followed by all that is below it, down to the given depth. -/
def Tree.below (tree : Tree) : Nat → Quark → List Quark
  | 0, _ => []
  | depth + 1, quark =>
      (tree.childrenOf quark).flatMap fun child => child :: tree.below depth child

/-- The children of an attribute, or its whole subtree in depth-first order. -/
def Tree.subAttributes (tree : Tree) (quark : Quark) (recursive : Bool) : List Quark :=
  if recursive then tree.below tree.nodes.size quark else tree.childrenOf quark

/-- This segment of a pattern stands for any one segment of a path. -/
def wildcard : String := "*"

/-- The places that one segment of a pattern reaches from a place. -/
def Tree.reachOne (tree : Tree) (place : Option Quark) (segment : String) : List Quark :=
  if segment = wildcard then (tree.branches place).order else (tree.child place segment).toList

/-- The places that a pattern reaches from a place, in the order of the branches. -/
def Tree.reach (tree : Tree) : Option Quark → List String → List Quark
  | place, [] => place.toList
  | place, segment :: rest =>
      (tree.reachOne place segment).flatMap fun quark => tree.reach (some quark) rest

/-- The attributes below a parent whose path fits the pattern, in ascending order. -/
def Tree.matching (tree : Tree) (parent : Option Quark) (pattern : List String) : List Quark :=
  Ascending.sort (tree.reach parent pattern)

end Chronicle
