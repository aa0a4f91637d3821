import Statechart.Tree.Basic

-- Configurations: the sets of nodes that are active together.

namespace Statechart

abbrev Configuration := NodeSet

namespace Configuration

-- Active atomic and final nodes, in document order.
def leaves (t : Tree) (c : Configuration) : List NodeIndex :=
  c.toList.filter fun n => (t.node n).isLeaf

-- What has to hold at `n` when it is active: its parent is active too, and so is exactly one region
-- of a compound node and every region of a parallel one. History nodes are never active.
def isLegalAt (t : Tree) (c : Configuration) (n : NodeIndex) : Bool :=
  (t.node n).parent.all c.contains &&
    match (t.node n).kind with
    | .compound => ((t.regions n).filter c.contains).length = 1
    | .parallel => (t.regions n).all c.contains
    | .atomic | .final => true
    | .history _ => false

def isLegal (t : Tree) (c : Configuration) : Bool :=
  c.contains Tree.root && c.toList.all (isLegalAt t c)

-- Whether `n` has completed, given the completed nodes below it: a compound node has an active
-- final child, every region of a parallel node has completed, a final node is active.
def completesAt (t : Tree) (c done : Configuration) (n : NodeIndex) : Bool :=
  match (t.node n).kind with
  | .compound => (t.children n).any fun k => c.contains k && (t.node k).isFinal
  | .parallel => (t.regions n).all done.contains
  | .final => c.contains n
  | .atomic | .history _ => false

-- The nodes that have completed. Children follow their parents in document order, so the nodes are
-- met from the last to the first.
def completed (t : Tree) (c : Configuration) : NodeSet :=
  t.indices.foldr (fun n done => if completesAt t c done n then done.insert n else done) ∅

def isComplete (t : Tree) (c : Configuration) (n : NodeIndex) : Bool := (completed t c).contains n

end Configuration

end Statechart
