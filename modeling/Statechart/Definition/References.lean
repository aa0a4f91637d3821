import Statechart.Definition.Problem
import Statechart.Registry
import Statechart.Tree.Basic

-- Whether every name in a tree is registered.

namespace Statechart.Definition

variable {C S : Type} (r : Registry C S) (n : Node)

def serviceProblems (service : String) : List Problem :=
  if r.hasService service then [] else [.unknownService n.id service]

def actionProblems : Action → List Problem
  | .named name => if r.hasAction name then [] else [.unknownAction n.id name]
  | .send s =>
    match s.delay with
    | some (.named name) => if r.hasDelay name then [] else [.unknownDelay n.id name]
    | _ => []
  | .spawn service _ => serviceProblems r n service
  | .raise _ | .cancel _ | .log _ | .stop _ => []

def guardProblems (u : Transition) : List Problem :=
  match u.guard with
  | some (.named name) => if r.hasGuard name then [] else [.unknownGuard n.id name]
  | _ => []

def nodeReferenceProblems : List Problem :=
  (n.entry ++ n.exit ++ n.transitions.flatMap (·.actions)).flatMap (actionProblems r n) ++
    n.transitions.flatMap (guardProblems r n) ++
    n.invocations.flatMap fun i => serviceProblems r n i.service

def referenceProblems (t : Tree) : List Problem :=
  t.nodes.toList.flatMap (nodeReferenceProblems r)

end Statechart.Definition
