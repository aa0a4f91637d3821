import Statechart.Interpreter.Actor
import Statechart.Interpreter.Scheduler
import Statechart.Machine

-- A running instance of a machine.

namespace Statechart

inductive Status
  | notStarted
  | running
  | stopped
  deriving DecidableEq, Inhabited

-- An event in a mailbox; `origin` is the actor that posted it, if it was one.
structure Envelope where
  origin : Option String := none
  event : Event
  deriving DecidableEq, Inhabited

-- `notify` says which events the listener posts when it sees a snapshot.
structure Listener (C : Type) where
  id : Nat
  notify : Snapshot C → List Event

-- Everything that an interpreter owns apart from its machine and its state.
structure Shell (C A : Type) where
  id : String
  hasParent : Bool := false
  status : Status := .notStarted
  actors : Arena A := []
  scheduler : Scheduler := {}
  mailbox : List Envelope := []
  -- what stopped the interpreter
  failure : Option ExecutionError := none
  lastError : Option ExecutionError := none
  -- the last macrostep's event, and whether it took a transition
  lastEvent : Option Event := none
  lastChanged : Bool := false
  listeners : List (Listener C) := []
  -- which events the listeners post that hear of errors and of the end
  errorListeners : List (ExecutionError → List Event) := []
  doneListeners : List (Json → List Event) := []
  subscriptions : Nat := 0

structure Interpreter (C S A : Type) where
  machine : Machine C S
  state : MachineState C
  shell : Shell C A

namespace Shell

variable {C A : Type}

-- Queues an event that comes from no actor.
def queue (s : Shell C A) (e : Event) : Shell C A :=
  { s with mailbox := s.mailbox ++ [{ event := e }] }

-- Queues what the actor `id` has posted.
def receive (s : Shell C A) (id : String) (posts : List Post) : Shell C A :=
  { s with mailbox := s.mailbox ++ posts.map fun p => ⟨some id, p.toEvent id⟩ }

-- Calls listeners one after the other. Each call is noted, and what the listener posts is queued.
def callAll (s : Shell C A) (listeners : List α) (entry : α → Entry C) (posts : α → List Event) :
    Turn C (Shell C A) :=
  listeners.foldlM (fun s l => do
    .note (entry l)
    pure ((posts l).foldl queue s)) s

end Shell

namespace Interpreter

variable {C S A : Type}

def new (m : Machine C S) : Interpreter C S A where
  machine := m
  state := .unstarted m.context
  shell := { id := m.tree.machineId }

def withId (i : Interpreter C S A) (id : String) : Interpreter C S A :=
  { i with shell.id := id }

-- A child of another interpreter.
def spawned (m : Machine C S) (id : String) : Interpreter C S A where
  machine := m
  state := .unstarted m.context
  shell := { id := id, hasParent := true }

def isRunning (i : Interpreter C S A) : Bool := i.shell.status = .running

def snapshot (i : Interpreter C S A) : Snapshot C :=
  let t := i.machine.tree
  let c := i.state.configuration
  { value := .ofConfiguration t c
    configuration := t.ids c.toList
    context := i.state.context
    event := i.shell.lastEvent
    changed := i.shell.lastChanged
    done := i.state.done
    tags := .ofList (c.toList.flatMap fun n => (t.node n).tags) }

-- Queues an event without processing it.
def post (i : Interpreter C S A) (e : Event) : Interpreter C S A :=
  { i with shell := i.shell.queue e }

-- The listener is called after every macrostep that took a transition. Subscriptions are numbered
-- from zero.
def subscribe (i : Interpreter C S A) (notify : Snapshot C → List Event) : Interpreter C S A :=
  { i with
    shell.listeners := i.shell.listeners ++ [⟨i.shell.subscriptions, notify⟩]
    shell.subscriptions := i.shell.subscriptions + 1 }

def isSubscribed (i : Interpreter C S A) (id : Nat) : Bool := i.shell.listeners.any (·.id = id)

def unsubscribe (i : Interpreter C S A) (id : Nat) : Interpreter C S A :=
  { i with shell.listeners := i.shell.listeners.filter (·.id ≠ id) }

-- The listener is called with every error, fatal or not. It posts nothing unless it is told to.
def onError (i : Interpreter C S A) (posts : optParam (ExecutionError → List Event) fun _ => []) :
    Interpreter C S A :=
  { i with shell.errorListeners := i.shell.errorListeners ++ [posts] }

-- The listener is called with the done data once a final state of the root is reached.
def onDone (i : Interpreter C S A) (posts : optParam (Json → List Event) fun _ => []) :
    Interpreter C S A :=
  { i with shell.doneListeners := i.shell.doneListeners ++ [posts] }

-- Time until the next delayed event is due.
def nextTimeout? (i : Interpreter C S A) (now : Duration) : Option Duration :=
  i.shell.scheduler.nextDeadline?.map (·.monus now)

end Interpreter

end Statechart
