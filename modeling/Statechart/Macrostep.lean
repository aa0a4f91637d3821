import Statechart.Microstep
import Statechart.Selection
import Statechart.Turn

-- A macrostep takes microsteps until the machine is at rest: first for its trigger, then without
-- an event as long as a transition is enabled that needs none, then for the next event that the
-- machine has raised for itself, and so on.

namespace Statechart

-- The part of a machine that changes as it runs.
structure MachineState (C : Type) where
  configuration : Configuration
  context : C
  history : History
  -- a final state of the root was reached
  done : Bool := false
  doneData : Option Json := none

def MachineState.unstarted (x : C) : MachineState C :=
  { configuration := ∅, context := x, history := ∅ }

def MachineState.after (s : MachineState C) (m : Microstep C) : MachineState C where
  configuration := m.configuration
  context := m.context
  history := m.history
  done := s.done || m.done
  doneData := if m.done then m.doneData else s.doneData

inductive Trigger
  | start
  | event (e : Event)
  deriving DecidableEq, Inhabited

def Trigger.toEvent : Trigger → Event
  | start => .init
  | event e => e

-- How far a macrostep has come. `shell` belongs to whoever commits its microsteps.
structure Progress (σ C : Type) where
  shell : σ
  state : MachineState C
  current : Event
  -- raised and not yet processed
  raised : List Event := []
  microsteps : Nat := 0
  -- failures of guards that counted as not passing
  guardErrors : List ExecutionError := []
  error : Option ExecutionError := none
  -- for which the last microstep was taken
  lastEvent : Option Event := none

namespace Progress

variable {σ C : Type}

def changed (p : Progress σ C) : Bool := 0 < p.microsteps

def fail (p : Progress σ C) (e : ExecutionError) : Progress σ C := { p with error := some e }

def noteErrors (p : Progress σ C) (es : List ExecutionError) : Progress σ C :=
  { p with guardErrors := p.guardErrors ++ es }

-- A refused microstep leaves its context behind and nothing else.
def refuse (p : Progress σ C) (shell : σ) (m : Microstep C) (e : ExecutionError) :
    Progress σ C :=
  { p with shell := shell, state := { p.state with context := m.context }, error := some e }

def accept (p : Progress σ C) (shell : σ) (m : Microstep C) : Progress σ C :=
  { p with
    shell := shell
    state := p.state.after m
    raised := p.raised ++ m.raised
    microsteps := p.microsteps + 1
    lastEvent := some p.current }

end Progress

-- Carries out what a microstep plans, or refuses it with an error.
abbrev Commit (σ C : Type) := σ → Microstep C → Event → Turn C (σ × Option ExecutionError)

inductive Choice (C : Type)
  | nothing
  | failed (error : ExecutionError)
  | step (m : Microstep C)

namespace GuardCheck

-- A registered guard is seen when it is evaluated, and a failure that does not count as an error
-- is warned about.
def entries (policy : GuardPolicy) (g : GuardCheck) : List (Entry C) :=
  let evaluated := if g.isRegistered then [.guard g.guard g.event] else []
  match policy, g.error? with
  | .treatAsFalse, some e => evaluated ++ [.warned (.guardFailed e)]
  | _, _ => evaluated

end GuardCheck

namespace Macrostep

section Rules

variable {C S : Type} (t : Tree) (r : Registry C S) (config : Config)

def observe (policy : GuardPolicy) (x : Evaluation α) : Turn C Unit :=
  .noteAll (x.checks.flatMap (·.entries policy))

def ofFault : Except Fault (Microstep C) → Turn C (Choice C)
  | .ok m => pure (.step m)
  | .error (.failed e) => pure (.failed e)
  | .error .illegal => .crash .illegalConfiguration

-- The microstep for the transitions that the event enables, with the guard failures met on the way.
def choose (s : MachineState C) (e : Event) (eventless : Bool) :
    Turn C (Choice C × List ExecutionError) := do
  let chosen := select t r config.guardPolicy s.configuration s.context e eventless
  observe config.guardPolicy chosen
  match chosen.result with
  | .error err => pure (.failed err, [])
  | .ok [] => pure (.nothing, chosen.guardErrors)
  | .ok us =>
    let m ← ofFault (Microstep.take t r e s.configuration s.context s.history us)
    pure (m, chosen.guardErrors)

variable {σ : Type} (commit : Commit σ C)

-- Every round takes a microstep, of which there is a limited number, or a raised event.
def loop (p : Progress σ C) : Turn C (Progress σ C) :=
  if p.state.done then pure p
  else if config.maxMicrosteps ≤ p.microsteps then
    pure (p.fail (.microstepLimit config.maxMicrosteps p.current.name))
  else do
    let (choice, errors) ← choose t r config p.state p.current true
    match choice with
    | .failed e => pure ((p.noteErrors errors).fail e)
    | .step m =>
      let q := p.noteErrors errors
      let (shell, refusal) ← commit q.shell m q.current
      match refusal with
      | some e => pure (q.refuse shell m e)
      | none => loop (q.accept shell m)
    | .nothing =>
      match hp : p.raised with
      | [] => pure (p.noteErrors errors)
      | e :: rest =>
        let q := { p.noteErrors errors with current := e, raised := rest }
        let (choice, errors) ← choose t r config q.state e false
        match choice with
        | .failed e => pure ((q.noteErrors errors).fail e)
        | .nothing => loop (q.noteErrors errors)
        | .step m =>
          let q := q.noteErrors errors
          let (shell, refusal) ← commit q.shell m q.current
          match refusal with
          | some e => pure (q.refuse shell m e)
          | none => loop (q.accept shell m)
termination_by (config.maxMicrosteps - p.microsteps, p.raised.length)
decreasing_by
  all_goals simp_all [Progress.accept, Progress.noteErrors, Prod.lex_def]
  all_goals omega

-- The first microstep and, if it was committed, the rest.
def begin (p : Progress σ C) (choice : Choice C) : Turn C (Progress σ C) :=
  match choice with
  | .nothing => pure p
  | .failed e => pure (p.fail e)
  | .step m => do
    let (shell, refusal) ← commit p.shell m p.current
    match refusal with
    | some e => pure (p.refuse shell m e)
    | none => loop t r config commit (p.accept shell m)

def run (shell : σ) (s : MachineState C) (trigger : Trigger) : Turn C (Progress σ C) := do
  let p : Progress σ C := { shell := shell, state := s, current := trigger.toEvent }
  match trigger with
  | .start =>
    begin t r config commit p (← ofFault (Microstep.initial t r p.current s.context s.history))
  | .event e =>
    let (choice, errors) ← choose t r config s e false
    begin t r config commit (p.noteErrors errors) choice

end Rules

end Macrostep

end Statechart
