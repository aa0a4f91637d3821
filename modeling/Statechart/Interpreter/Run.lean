import Statechart.Interpreter.Perform

-- Running an interpreter. Events wait in its mailbox and are taken one macrostep at a time; what is
-- posted during a macrostep waits for the next one. Stopping is final.

namespace Statechart.Interpreter

variable {C S A : Type} [ActorModel C S A] (env : Env)

-- Carries out the plan of a microstep up to its first failure.
def commit (r : Registry C S) : Commit (Shell C A) C := fun s m e =>
  s.performAll env r m.context e m.actions

def halt (i : Interpreter C S A) : Turn C (Interpreter C S A) := do
  pure { i with shell := ← i.shell.halt env }

-- What a parent is told of a child that failed.
def errorData (e : ExecutionError) : Json :=
  .obj [("code", .str e.code), ("message", .str e.message)]

def fail (i : Interpreter C S A) (e : ExecutionError) : Turn C (Interpreter C S A) := do
  .warn .interpreterFailed
  if i.shell.hasParent then .post (.reject (errorData e))
  halt env { i with shell.failure := some e }

-- A final state of the root was reached.
def finish (i : Interpreter C S A) : Turn C (Interpreter C S A) := do
  let data := i.state.doneData.getD .null
  let s ← i.shell.callAll i.shell.doneListeners (fun _ => .finished data) (· data)
  if i.shell.hasParent then .post (.resolve data)
  halt env { i with shell := s }

-- Calls the listeners in the order in which they subscribed.
def notify (i : Interpreter C S A) : Turn C (Interpreter C S A) := do
  let snapshot := i.snapshot
  let s ← i.shell.callAll i.shell.listeners (.notified ·.id snapshot) (·.notify snapshot)
  pure { i with shell := s }

-- After a macrostep that did not stop the interpreter.
def settle (i : Interpreter C S A) (changed : Bool) : Turn C (Interpreter C S A) := do
  let i ← if changed then i.notify else pure i
  if i.state.done then i.finish env else pure i

-- An error is fatal if the policy says so, and before the first configuration.
def isFatal (i : Interpreter C S A) : Bool :=
  i.machine.config.errorPolicy = .fatal || i.state.configuration.isEmpty

-- What follows the last microstep of a macrostep.
def conclude (i : Interpreter C S A) (trigger : Trigger) (p : Progress (Shell C A) C) :
    Turn C (Interpreter C S A) := do
  let s ← p.shell.reportAll p.guardErrors
  let s := { s with lastEvent := some trigger.toEvent, lastChanged := p.changed }
  match p.error with
  | none => settle env { i with state := p.state, shell := s } p.changed
  | some e => do
    let i := { i with state := p.state, shell := ← s.report e }
    if i.isFatal then i.fail env e else i.settle env p.changed

def macrostep (i : Interpreter C S A) (trigger : Trigger) : Turn C (Interpreter C S A) := do
  let m := i.machine
  let p ← Macrostep.run m.tree m.registry m.config (commit env m.registry) i.shell i.state trigger
  i.conclude env trigger p

-- An event of an actor that is gone is dropped; an event from outside is also passed on to the
-- actors that get every such event.
def process (i : Interpreter C S A) (e : Envelope) : Turn C (Interpreter C S A) :=
  match e.origin with
  | some id => if i.shell.actors.contains id then i.macrostep env (.event e.event) else pure i
  | none => do
    let i := { i with shell := ← i.shell.forward env e.event }
    i.macrostep env (.event e.event)

-- Processes the mailbox until it is empty or the interpreter stops.
def drainWithin : Nat → Interpreter C S A → Turn C (Interpreter C S A)
  | fuel, i =>
    if !i.isRunning then pure i
    else
      match i.shell.mailbox, fuel with
      | [], _ => pure i
      | _ :: _, 0 => .crash .exhausted
      | e :: rest, fuel + 1 => do
        drainWithin fuel (← process env { i with shell.mailbox := rest } e)

def drain (i : Interpreter C S A) : Turn C (Interpreter C S A) := drainWithin env env.fuel i

-- Enters the initial configuration. An interpreter is started once.
def start (i : Interpreter C S A) : Turn C (Interpreter C S A) :=
  if i.shell.status = .notStarted then do
    let i ← macrostep env { i with shell.status := .running } .start
    i.drain env
  else pure i

-- An interpreter that is not running takes no events.
def send (i : Interpreter C S A) (e : Event) : Turn C (Interpreter C S A) :=
  if i.isRunning then (i.post e).drain env else pure i

-- Exits every active node. The configuration stays as it was, for inspection.
def stop (i : Interpreter C S A) : Turn C (Interpreter C S A) :=
  match i.shell.status with
  | .stopped => pure i
  | .notStarted => pure { i with shell.status := .stopped }
  | .running => do
    let m := i.machine
    let e := Event.stop
    match Microstep.exitAll m.tree m.registry e i.state.configuration i.state.context
        i.state.history with
    | .ok step => do
      let s ← i.shell.performEach env m.registry step.context e step.actions
      halt env { i with state.context := step.context, shell := s }
    | .error err => do
      halt env { i with shell := ← i.shell.report err }

-- Delivers the delayed events that are due, each followed by the mailbox.
def deliverDueWithin : Nat → Interpreter C S A → Turn C (Interpreter C S A)
  | fuel, i =>
    if !i.isRunning then pure i
    else
      match i.shell.scheduler.popDue? env.now, fuel with
      | none, _ => pure i
      | some _, 0 => .crash .exhausted
      | some (due, rest), fuel + 1 => do
        let s ← Shell.deliver env { i.shell with scheduler := rest } due.target due.event
        deliverDueWithin fuel (← drain env { i with shell := s })

-- Lets the actors do what is due, then delivers own delayed events and what the actors posted.
def poll (i : Interpreter C S A) : Turn C (Interpreter C S A) :=
  if i.isRunning then do
    let s ← i.shell.eachActor (fun _ => true) (ActorModel.poll env)
    let i ← deliverDueWithin env env.fuel { i with shell := s }
    i.drain env
  else pure i

-- Lets the asynchronous tasks of all actors end. What they post waits in the mailbox.
def finishTasks (i : Interpreter C S A) : Turn C (Interpreter C S A) := do
  pure { i with shell := ← i.shell.eachActor (fun _ => true) ActorModel.finishTasks }

end Statechart.Interpreter
