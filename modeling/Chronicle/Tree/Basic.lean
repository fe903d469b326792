import Chronicle.HistoryError

/-!
The tree of attributes. Every attribute is a node with a name, and its quark is the position of its
node in creation order, so quarks are dense and a parent always precedes its children.
-/

namespace Chronicle

/-- The branches of a node find a child by name and list the children in creation order. -/
structure Branches where
  named : List (String × Quark)
  order : List Quark
  deriving DecidableEq, Inhabited

def Branches.empty : Branches := ⟨[], []⟩

def Branches.find (branches : Branches) (name : String) : Option Quark :=
  branches.named.lookup name

/-- A new child comes last. -/
def Branches.add (branches : Branches) (name : String) (quark : Quark) : Branches :=
  ⟨branches.named ++ [(name, quark)], branches.order ++ [quark]⟩

/-- A node is one attribute. -/
structure Node where
  name : String
  parent : Option Quark
  children : Branches
  deriving DecidableEq, Inhabited

/-- A tree keeps its nodes by quark and the attributes without a parent at its top. -/
structure Tree where
  nodes : Array Node
  top : Branches
  deriving DecidableEq, Inhabited

def Tree.empty : Tree := ⟨#[], .empty⟩

/-- The number of quarks given out so far. -/
def Tree.size (tree : Tree) : Nat := tree.nodes.size

def Tree.contains (tree : Tree) (quark : Quark) : Bool := quark < tree.nodes.size

/-- All quarks in creation order. -/
def Tree.quarks (tree : Tree) : List Quark := List.range tree.nodes.size

/-- The branches below a parent, or at the top when there is none. -/
def Tree.branches (tree : Tree) : Option Quark → Branches
  | none => tree.top
  | some parent =>
      match tree.nodes[parent]? with
      | some node => node.children
      | none => .empty

def Tree.roots (tree : Tree) : List Quark := tree.top.order

def Tree.childrenOf (tree : Tree) (quark : Quark) : List Quark :=
  (tree.branches (some quark)).order

def Tree.nameOf (tree : Tree) (quark : Quark) : Option String :=
  (tree.nodes[quark]?).map Node.name

def Tree.parentOf (tree : Tree) (quark : Quark) : Option Quark :=
  (tree.nodes[quark]?).bind Node.parent

/-- Looking up a child never creates one. -/
def Tree.child (tree : Tree) (parent : Option Quark) (name : String) : Option Quark :=
  (tree.branches parent).find name

/-- The walk follows the segments down from a place in the tree. -/
def Tree.walk (tree : Tree) : Option Quark → List String → Option Quark
  | place, [] => place
  | place, name :: rest =>
      match tree.child place name with
      | some quark => tree.walk (some quark) rest
      | none => none

/-- Looking up a path below a parent fails when the parent is not in the tree. -/
def Tree.find (tree : Tree) (parent : Option Quark) (path : List String) : Option Quark :=
  match parent with
  | none => tree.walk none path
  | some quark => if tree.contains quark then tree.walk (some quark) path else none

/-- A new child takes the next quark and comes last among the children of its parent. -/
def Tree.addChild (tree : Tree) (parent : Option Quark) (name : String) : Tree :=
  let quark := tree.nodes.size
  let nodes := tree.nodes.push ⟨name, parent, .empty⟩
  match parent with
  | none => ⟨nodes, tree.top.add name quark⟩
  | some place =>
      ⟨nodes.modify place fun node => { node with children := node.children.add name quark },
        tree.top⟩

/-- Resolving a child gives the quark that it has, and creates it on first use. -/
def Tree.resolveChild (tree : Tree) (parent : Option Quark) (name : String) :
    Attempt Tree Quark :=
  match tree.child parent name, parent with
  | some quark, _ => .done quark tree
  | none, none => .done tree.nodes.size (tree.addChild none name)
  | none, some place =>
      if tree.contains place then .done tree.nodes.size (tree.addChild (some place) name)
      else .fail (.unknownQuark place) tree

/-- Resolving a path creates the segments that are missing. The empty path names its parent, and
names nothing where there is no parent. -/
def Tree.resolve (tree : Tree) (parent : Option Quark) : List String → Attempt Tree Quark
  | [] =>
      match parent with
      | some quark => .done quark tree
      | none => .fail (.unknownPath "") tree
  | name :: rest =>
      (tree.resolveChild parent name).andThen fun quark grown => grown.resolve (some quark) rest

end Chronicle
