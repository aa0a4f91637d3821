import Statechart.Tree.Node

-- Machine definitions as they are written down, before their references are resolved.

namespace Statechart.Definition

inductive GuardSpec
  | named (name : String)
  -- the id of a node that has to be active, with or without a leading `#`
  | inState (reference : String)
  deriving DecidableEq, Inhabited

structure TransitionSpec where
  targets : List String := []
  guard : Option GuardSpec := none
  actions : List Action := []
  -- `none` leaves the choice to the way the targets are written
  isInternal : Option Bool := none
  deriving DecidableEq, Inhabited

-- A transition whose targets all lie below its source, and are written so, is internal.
def TransitionSpec.resolvedInternal (s : TransitionSpec) : Bool :=
  s.isInternal.getD (!s.targets.isEmpty && s.targets.all fun x => x.toList.head? = some '.')

-- When a transition is looked at.
inductive Occasion
  | event (descriptor : String)
  | always
  | after (delay : Delay)
  | done
  deriving DecidableEq, Inhabited

structure InvokeSpec where
  service : String
  id : Option String := none
  onDone : Option TransitionSpec := none
  onError : Option TransitionSpec := none
  autoForward : Bool := false
  deriving DecidableEq, Inhabited

-- `auto` is a compound node if it has children and an atomic one otherwise.
inductive Shape
  | auto
  | parallel
  | final
  | history (kind : HistoryKind)
  deriving DecidableEq, Inhabited

-- A state without its children.
structure StateSpec where
  key : String := ""
  shape : Shape := .auto
  id : Option String := none
  initial : Option String := none
  transitions : List (Occasion × TransitionSpec) := []
  entry : List Action := []
  exit : List Action := []
  invocations : List InvokeSpec := []
  -- defaults of a history state
  targets : List String := []
  data : Option Json := none
  tags : List String := []
  deriving DecidableEq, Inhabited

inductive State
  | mk (spec : StateSpec) (children : List State)
  deriving Inhabited

namespace State

def spec : State → StateSpec
  | mk s _ => s

def children : State → List State
  | mk _ cs => cs

mutual

-- Number of states, the state itself included.
def size : State → Nat
  | mk _ cs => sizeAll cs + 1

def sizeAll : List State → Nat
  | [] => 0
  | s :: rest => s.size + sizeAll rest

end

end State

end Statechart.Definition
