import Statechart.Configuration.Basic

-- Which part of a configuration a transition leaves.

namespace Statechart

namespace Tree

-- The node below which a transition exits everything; a targetless transition has none. An internal
-- transition of a compound node to its descendants stays inside that node.
def domain (t : Tree) (u : Transition) : Option NodeIndex :=
  if u.isTargetless then none
  else if u.isInternal && t.isCompound u.source && u.targets.all (t.isDescendant · u.source) then
    some u.source
  else some (t.commonAncestor (u.source :: u.targets))

def exits (t : Tree) (u : Transition) (n : NodeIndex) : Bool :=
  match t.domain u with
  | none => false
  | some d => t.isDescendant n d

def exitSet (t : Tree) (c : Configuration) (u : Transition) : NodeSet := c.filter (t.exits u)

end Tree

end Statechart
