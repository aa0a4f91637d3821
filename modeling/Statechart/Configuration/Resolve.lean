import Statechart.Configuration.History

-- The configuration reached by activating some nodes.

namespace Statechart

-- An id that no node of the tree has.
structure UnknownNode where
  id : String
  deriving DecidableEq, Inhabited

def UnknownNode.message (e : UnknownNode) : String := s!"unknown state node '{e.id}'"

namespace Tree

-- The nodes that a target stands for. A history node stands for what it has recorded, else for its
-- defaults, else for the node that its parent enters first.
def concreteTargets (t : Tree) (h : History) (n : NodeIndex) : List NodeIndex :=
  if (t.node n).isHistory then
    match h.find? n with
    | some recorded => recorded.toList
    | none =>
      if (t.node n).defaults.isEmpty then
        match (t.node n).parent with
        | some p => [(t.node p).initial.getD p]
        | none => []
      else (t.node n).defaults
  else [n]

-- Adds what `n` activates below itself: an active compound node without an active child enters its
-- initial one, an active parallel node all its regions.
def enterBelow (t : Tree) (active : NodeSet) (n : NodeIndex) : NodeSet :=
  if active.contains n then
    match (t.node n).kind with
    | .compound =>
      if (t.children n).any active.contains then active
      else active.insertAll (t.node n).initial.toList
    | .parallel => active.insertAll (t.regions n)
    | .atomic | .final | .history _ => active
  else active

-- The seeds' concrete targets with all their ancestors, completed downwards. One pass is enough,
-- because parents come before their children.
def resolve (t : Tree) (h : History) (seeds : List NodeIndex) : Configuration :=
  let targets := seeds.flatMap (t.concreteTargets h)
  t.indices.foldl t.enterBelow (.ofList (targets.flatMap t.path))

-- The first id that names no node is the error.
def indicesOf (t : Tree) (ids : List String) : Except UnknownNode (List NodeIndex) :=
  ids.mapM fun id => (t.indexOf? id).elim (.error ⟨id⟩) .ok

end Tree

end Statechart
