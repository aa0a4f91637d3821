import Statechart.Tree.Node
import Statechart.Sorted.Set

-- The definition tree: its nodes in document order, so that the root has index 0.

namespace Statechart

abbrev NodeSet := SortedSet NodeIndex

structure Tree where
  machineId : String
  nodes : Array Node
  deriving DecidableEq, Inhabited

namespace Tree

def size (t : Tree) : Nat := t.nodes.size

def root : NodeIndex := 0

-- Indices come from the tree itself; any other index stands for an atomic node without relatives.
def node (t : Tree) (n : NodeIndex) : Node := t.nodes[n]?.getD {}

def indices (t : Tree) : List NodeIndex := List.range t.size

def indexOf? (t : Tree) (id : String) : Option NodeIndex := t.nodes.findIdx? (·.id = id)

def transitions (t : Tree) : List Transition := t.nodes.toList.flatMap (·.transitions)

-- Proper ancestors, nearest first.
def ancestors (t : Tree) (n : NodeIndex) : List NodeIndex := (t.node n).ancestors

-- The node itself and then its ancestors.
def path (t : Tree) (n : NodeIndex) : List NodeIndex := n :: t.ancestors n

def children (t : Tree) (n : NodeIndex) : List NodeIndex := (t.node n).children

-- The children that can be active: history nodes are not among them.
def regions (t : Tree) (n : NodeIndex) : List NodeIndex :=
  (t.children n).filter fun c => !(t.node c).isHistory

def isDescendant (t : Tree) (n ancestor : NodeIndex) : Bool := (t.ancestors n).contains ancestor

def isCompound (t : Tree) (n : NodeIndex) : Bool := (t.node n).kind = .compound

def isParallel (t : Tree) (n : NodeIndex) : Bool := (t.node n).kind = .parallel

def ids (t : Tree) (ns : List NodeIndex) : List String := ns.map fun n => (t.node n).id

-- Depths are below this.
def height (t : Tree) : Nat := t.nodes.foldl (fun h n => max h (n.depth + 1)) 0

-- By depth, and in document order within one depth.
def shallowestFirst (t : Tree) (ns : List NodeIndex) : List NodeIndex :=
  (List.range t.height).flatMap fun d => ns.filter fun n => (t.node n).depth = d

-- The nearest proper ancestor of the first node that is compound, or the root, and above all the
-- other nodes.
def commonAncestor (t : Tree) : List NodeIndex → NodeIndex
  | [] => root
  | n :: rest =>
    ((t.ancestors n).find? fun a =>
      (t.isCompound a || (t.node a).parent.isNone) && rest.all (t.isDescendant · a)).getD root

end Tree

end Statechart
