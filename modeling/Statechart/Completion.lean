import Statechart.Configuration.Basic

-- The events by which completed nodes announce themselves, and the end of the whole machine.

namespace Statechart

namespace Tree

-- A final child of the root ends the machine.
def endsMachine (t : Tree) (n : NodeIndex) : Bool :=
  (t.node n).isFinal && (t.node n).parent = some root

-- The compound node, other than the root, that an entered final node completes.
def completedParent? (t : Tree) (n : NodeIndex) : Option NodeIndex :=
  if (t.node n).isFinal then
    (t.node n).parent.filter fun p => p ≠ root && t.isCompound p
  else none

def doneEvent? (t : Tree) (n : NodeIndex) : Option Event :=
  (t.completedParent? n).map fun p => .doneState (t.node p).id ((t.node n).data.getD .null)

-- The parallel nodes directly above the parent that are complete in `done`, innermost first.
def completedAbove (t : Tree) (done : NodeSet) (n : NodeIndex) : List NodeIndex :=
  match t.completedParent? n with
  | none => []
  | some p => (t.ancestors p).takeWhile fun a => t.isParallel a && done.contains a

-- Parallel nodes completed by entering `entered`, each of them once.
def completedParallels (t : Tree) (c : Configuration) (entered : List NodeIndex) :
    List NodeIndex :=
  (entered.flatMap (t.completedAbove (c.completed t))).eraseDups

def parallelEvents (t : Tree) (parallels : List NodeIndex) : List Event :=
  (parallels.filter (· ≠ root)).map fun n => .doneState (t.node n).id .null

-- What the machine ends with: the data of the last of `entered` that ends it.
def doneData (t : Tree) (entered : List NodeIndex) : Option Json :=
  (entered.filter t.endsMachine).getLast?.bind fun n => (t.node n).data

end Tree

end Statechart
