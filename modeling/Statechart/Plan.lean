import Statechart.Domain
import Statechart.Registry

-- Turning actions into a plan: assignments are applied at once, everything else is written down for
-- whoever carries the plan out.

namespace Statechart

-- `owner` is the node whose exit cancels a delayed send, or the node an invocation belongs to.
inductive Planned
  | effect (name : String)
  | send (event : Event) (target : Target) (delay : Option Duration) (id : Option String)
      (owner : NodeIndex)
  | cancel (id : String)
  | log (label : String)
  | spawn (service id : String) (owner : Option NodeIndex) (autoForward : Bool)
  | stop (id : String)
  | cancelOwned (owner : NodeIndex)
  deriving DecidableEq, Inhabited

def Planned.isSpawn : Planned → Bool
  | spawn .. => true
  | _ => false

def Planned.isStop : Planned → Bool
  | stop _ => true
  | _ => false

-- `raised` are the events for the machine itself.
structure Plan (C : Type) where
  context : C
  actions : List Planned := []
  raised : List Event := []

namespace Plan

variable {C S : Type}

def push (p : Plan C) (a : Planned) : Plan C := { p with actions := p.actions ++ [a] }

def raise (p : Plan C) (e : Event) : Plan C := { p with raised := p.raised ++ [e] }

section Actions

variable (r : Registry C S) (e : Event)

def delay (p : Plan C) : Delay → Except ExecutionError Duration
  | .fixed d => .ok d
  | .named name =>
    match r.delays.find? name with
    | some compute => .ok (compute p.context e)
    | none => .error (.unknownDelay name)

def add (owner : NodeIndex) (p : Plan C) : Action → Except ExecutionError (Plan C)
  | .named name =>
    match r.actions.find? name with
    | some (.assign update) => .ok { p with context := update p.context e }
    | some (.effect _) => .ok (p.push (.effect name))
    | none => .error (.unknownAction name)
  | .raise event => .ok (p.raise event)
  | .send s => do
    let d ← s.delay.mapM (delay r e p)
    pure (p.push (.send (s.event.getD e) s.target d s.id owner))
  | .cancel id => .ok (p.push (.cancel id))
  | .log label => .ok (p.push (.log label))
  | .spawn service id => .ok (p.push (.spawn service id none false))
  | .stop id => .ok (p.push (.stop id))

def addAll (owner : NodeIndex) (p : Plan C) (actions : List Action) :
    Except ExecutionError (Plan C) :=
  actions.foldlM (add r e owner) p

-- Exit actions, then the ends of the node's invocations and of the delayed sends it owns.
def exit (t : Tree) (p : Plan C) (n : NodeIndex) : Except ExecutionError (Plan C) := do
  let p ← addAll r e Tree.root p (t.node n).exit
  let stops := (t.node n).invocations.map fun i => Planned.stop i.id
  pure { p with actions := p.actions ++ stops ++ [.cancelOwned n] }

def invoke (t : Tree) (p : Plan C) (n : NodeIndex) : Plan C :=
  let spawns := (t.node n).invocations.map fun i =>
    Planned.spawn i.service i.id (some n) i.autoForward
  { p with actions := p.actions ++ spawns }

-- Entry actions, then the node's invocations.
def enter (t : Tree) (p : Plan C) (n : NodeIndex) : Except ExecutionError (Plan C) := do
  let p ← addAll r e n p (t.node n).entry
  pure (p.invoke t n)

-- Of the entry actions only the delayed sends, then the node's invocations.
def resume (t : Tree) (p : Plan C) (n : NodeIndex) : Except ExecutionError (Plan C) := do
  let p ← addAll r e n p ((t.node n).entry.filter (·.isDelayedSend))
  pure (p.invoke t n)

end Actions

end Plan

end Statechart
