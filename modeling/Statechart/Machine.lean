import Statechart.Macrostep

-- A machine: a definition tree with all that its names stand for, and the context it starts with.

namespace Statechart

structure Machine (C S : Type) where
  tree : Tree
  registry : Registry C S
  context : C
  config : Config := {}

-- What a macrostep comes to when nothing of its plan is carried out.
structure MachineStep (C : Type) where
  state : MachineState C
  -- everything planned, in the order it would be carried out
  actions : List Planned := []
  error : Option ExecutionError := none
  changed : Bool := false

namespace Machine

variable {C S : Type}

def withContext (m : Machine C S) (x : C) : Machine C S := { m with context := x }

def value (m : Machine C S) (s : MachineState C) : StateValue :=
  .ofConfiguration m.tree s.configuration

-- Accepts every microstep and notes its plan.
def noteActions : Commit (List Planned) C := fun actions m _ => pure (actions ++ m.actions, none)

def run (m : Machine C S) (s : MachineState C) (trigger : Trigger) : Turn C (MachineStep C) := do
  let p ← Macrostep.run m.tree m.registry m.config noteActions [] s trigger
  pure { state := p.state, actions := p.shell, error := p.error, changed := p.changed }

-- The state in which the initial configuration has been entered.
def initialState (m : Machine C S) : Turn C (MachineStep C) :=
  m.run (.unstarted m.context) .start

-- A state that is done takes no more events.
def transition (m : Machine C S) (s : MachineState C) (e : Event) : Turn C (MachineStep C) :=
  if s.done then pure { state := s } else m.run s (.event e)

end Machine

end Statechart
