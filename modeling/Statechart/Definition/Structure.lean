import Statechart.Definition.Problem
import Statechart.Tree.Basic

-- Rules for the shape of a tree.

namespace Statechart.Definition

variable (t : Tree)

def childrenProblems (n : Node) : List Problem :=
  match n.kind with
  | .final =>
    if !n.children.isEmpty then [.finalWithChildren n.id]
    else if n.parent.any t.isParallel then [.finalInParallel n.id]
    else []
  | .history _ => if n.children.isEmpty then [] else [.historyWithChildren n.id]
  | .parallel =>
    if n.children.all fun c => (t.node c).isHistory then [.emptyParallel n.id] else []
  | .atomic | .compound => []

-- The defaults of a history node lie below its parent and are no history nodes themselves.
def historyProblems (n : Node) : List Problem :=
  if n.isHistory then
    match n.parent with
    | none => [.historyAtRoot n.id]
    | some p =>
      n.defaults.filterMap fun d =>
        if t.isDescendant d p && !(t.node d).isHistory then none
        else some (.invalidHistoryTarget n.id (t.node d).id)
  else []

-- Whether two nodes lie in different regions of a parallel node, and so can be active together
-- although neither is above the other.
def orthogonal (a b : NodeIndex) : Bool :=
  a ≠ b && !t.isDescendant a b && !t.isDescendant b a &&
    ((t.ancestors a).find? (t.isDescendant b ·)).any t.isParallel

def allOrthogonal : List NodeIndex → Bool
  | [] => true
  | a :: rest => rest.all (orthogonal t a) && allOrthogonal rest

def targetProblems (n : Node) (u : Transition) : List Problem :=
  if allOrthogonal t u.targets then [] else [.conflictingTargets n.id u.on.toString]

def structureProblems : List Problem :=
  t.nodes.toList.flatMap fun n =>
    childrenProblems t n ++ historyProblems t n ++ n.transitions.flatMap (targetProblems t n)

end Statechart.Definition
