import Statechart.Checkpoint.Basic
import Statechart.Interpreter.Run

-- Starting an interpreter from a checkpoint instead of from the initial configuration.

namespace Statechart.Interpreter

variable {C S A : Type} [ActorModel C S A] (env : Env)

def checkpoint (i : Interpreter C S A) (id : Uuid) (timestamp : Timestamp) : Checkpoint C :=
  .capture i.machine.tree id timestamp i.state

-- The state to go on from, and what is to be done then.
def resumption (i : Interpreter C S A) (c : Checkpoint C) :
    Except CheckpointError (MachineState C × List Planned) := do
  if i.shell.status ≠ .notStarted then throw .alreadyStarted
  let m := i.machine
  let s ← c.state m.tree
  let actions ← (Microstep.resume m.tree m.registry .init s.configuration s.context).mapError
    .notResumable
  pure (s, actions)

def resume (i : Interpreter C S A) (s : MachineState C) (actions : List Planned) :
    Turn C (Interpreter C S A) := do
  let i := { i with
    state := s
    shell.status := .running
    shell.lastEvent := some Event.init }
  if s.done then i.halt env
  else
    let i := { i with
      shell := ← i.shell.performEach env i.machine.registry s.context .init actions }
    i.drain env

-- A checkpoint that is refused changes nothing.
def restore (i : Interpreter C S A) (c : Checkpoint C) :
    Turn C (Except CheckpointError (Interpreter C S A)) :=
  match i.resumption c with
  | .error e => pure (.error e)
  | .ok (s, actions) => do
    pure (.ok (← i.resume env s actions))

end Statechart.Interpreter
