import Statechart.Completion
import Statechart.Configuration.Resolve
import Statechart.Plan

-- One microstep: some transitions are taken together. Nothing is carried out here; the result says
-- what the machine becomes and what is to be done.

namespace Statechart

structure Microstep (C : Type) where
  configuration : Configuration
  context : C
  history : History
  -- deepest first
  exited : List NodeIndex := []
  -- shallowest first
  entered : List NodeIndex := []
  exitActions : List Planned := []
  transitionActions : List Planned := []
  entryActions : List Planned := []
  raised : List Event := []
  done : Bool := false
  doneData : Option Json := none

-- In the order they are carried out.
def Microstep.actions (m : Microstep C) : List Planned :=
  m.exitActions ++ m.transitionActions ++ m.entryActions

-- Planning failed, or the nodes to be active cannot be active together.
inductive Fault
  | failed (error : ExecutionError)
  | illegal
  deriving DecidableEq, Inhabited

namespace Microstep

variable {C S : Type} (t : Tree) (r : Registry C S) (e : Event)

def planned (p : Except ExecutionError (Plan C)) : Except Fault (Plan C) := p.mapError .failed

-- Nodes to exit, deepest first; nodes of one depth in reverse document order.
def deepestFirst (c : Configuration) : List NodeIndex := (t.shallowestFirst c.toList).reverse

def enterNode (p : Plan C) (n : NodeIndex) : Except ExecutionError (Plan C) := do
  let p ← p.enter r e t n
  pure { p with raised := p.raised ++ (t.doneEvent? n).toList }

-- Enters `next` after the nodes in `remaining` stayed active. Events of completed parallel nodes
-- follow all others.
def enter (m : Microstep C) (raised : List Event) (remaining next : Configuration) :
    Except Fault (Microstep C) := do
  if !next.isLegal t then throw .illegal
  let entered := t.shallowestFirst (next.filter fun n => !remaining.contains n).toList
  let p ← planned (entered.foldlM (enterNode t r e) { context := m.context, raised := raised })
  let parallels := t.completedParallels next entered
  pure { m with
    configuration := next
    context := p.context
    entered := entered
    entryActions := p.actions
    raised := p.raised ++ t.parallelEvents parallels
    done := entered.any t.endsMachine || parallels.contains Tree.root
    doneData := t.doneData entered }

def addTransition (p : Plan C) (u : Transition) : Except ExecutionError (Plan C) :=
  p.addAll r e ((t.domain u).getD u.source) u.actions

def exiting (c : Configuration) (us : List Transition) : NodeSet :=
  c.filter fun n => us.any (t.exits · n)

def remaining (c : Configuration) (us : List Transition) : Configuration :=
  c.filter fun n => !us.any (t.exits · n)

-- The nodes active after `us`, where `h` is the history recorded on the way out.
def next (c : Configuration) (h : History) (us : List Transition) : Configuration :=
  let rest := remaining t c us
  if us.all (·.isTargetless) then rest else t.resolve h (rest.toList ++ us.flatMap (·.targets))

-- Takes the transitions `us` together.
def take (c : Configuration) (x : C) (h : History) (us : List Transition) :
    Except Fault (Microstep C) := do
  let exited := deepestFirst t (exiting t c us)
  let h := h.recordExit t c exited
  let p ← planned (exited.foldlM (Plan.exit r e t) { context := x })
  let q ← planned (us.foldlM (addTransition t r e) { p with actions := [] })
  let m : Microstep C := {
    configuration := remaining t c us
    context := q.context
    history := h
    exited := exited
    exitActions := p.actions
    transitionActions := q.actions }
  enter t r e m q.raised (remaining t c us) (next t c h us)

-- Enters the root and what it leads to.
def initial (x : C) (h : History) : Except Fault (Microstep C) :=
  enter t r e { configuration := ∅, context := x, history := h } [] ∅ (t.resolve h [Tree.root])

-- Leaves every active node. Events raised on the way are dropped.
def exitAll (c : Configuration) (x : C) (h : History) : Except ExecutionError (Microstep C) := do
  let exited := deepestFirst t c
  let p ← exited.foldlM (Plan.exit r e t) { context := x }
  pure {
    configuration := ∅
    context := p.context
    history := h
    exited := exited
    exitActions := p.actions }

-- What brings a restored configuration back to life: no entry action is run again, but the delayed
-- sends declared on entry and the invocations of the active nodes are started.
def resume (c : Configuration) (x : C) : Except ExecutionError (List Planned) := do
  let p ← (t.shallowestFirst c.toList).foldlM (Plan.resume r e t) { context := x }
  pure p.actions

end Microstep

end Statechart
