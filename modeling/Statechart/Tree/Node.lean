import Statechart.Action
import Statechart.Descriptor

-- The nodes of a definition tree. A node refers to others by their place in document order, in
-- which the root comes first and every node before its descendants.

namespace Statechart

abbrev NodeIndex := Nat

inductive HistoryKind
  | shallow
  | deep
  deriving DecidableEq, Inhabited

inductive NodeKind
  | atomic
  | compound
  | parallel
  | history (kind : HistoryKind)
  | final
  deriving DecidableEq, Inhabited

def HistoryKind.name : HistoryKind → String
  | shallow => "shallow"
  | deep => "deep"

def HistoryKind.ofDocument? (d : Document) : Option HistoryKind :=
  match d.variant? [shallow.name, deep.name] with
  | some s => some (if s = shallow.name then shallow else deep)
  | none => none

def NodeKind.name : NodeKind → String
  | atomic => "atomic"
  | compound => "compound"
  | parallel => "parallel"
  | history .shallow => "shallow history"
  | history .deep => "deep history"
  | final => "final"

-- A transition may depend on a registered guard or on another node being active.
inductive Guard
  | named (name : String)
  | active (node : NodeIndex)
  deriving DecidableEq, Inhabited

-- `position` is the place among the transitions of `source`; the two tell transitions apart.
structure Transition where
  source : NodeIndex
  position : Nat
  on : Descriptor
  guard : Option Guard := none
  actions : List Action := []
  targets : List NodeIndex := []
  isInternal : Bool := false
  deriving DecidableEq, Inhabited

def Transition.isTargetless (t : Transition) : Bool := t.targets.isEmpty

def Transition.isSame (t u : Transition) : Bool := t.source = u.source && t.position = u.position

-- A service that runs while its node is active.
structure Invocation where
  id : String
  service : String
  autoForward : Bool := false
  deriving DecidableEq, Inhabited

structure Node where
  id : String := ""
  key : String := ""
  kind : NodeKind := .atomic
  -- nearest first
  ancestors : List NodeIndex := []
  children : List NodeIndex := []
  initial : Option NodeIndex := none
  transitions : List Transition := []
  entry : List Action := []
  exit : List Action := []
  invocations : List Invocation := []
  -- where a history node leads as long as nothing is recorded
  defaults : List NodeIndex := []
  data : Option Json := none
  tags : List String := []
  deriving DecidableEq, Inhabited

namespace Node

def parent (n : Node) : Option NodeIndex := n.ancestors.head?

-- Distance from the root.
def depth (n : Node) : Nat := n.ancestors.length

-- Atomic and final nodes are the leaves of a configuration.
def isLeaf (n : Node) : Bool := n.kind = .atomic || n.kind = .final

def isHistory (n : Node) : Bool :=
  match n.kind with
  | .history _ => true
  | _ => false

def isFinal (n : Node) : Bool := n.kind = .final

end Node

end Statechart
