import Statechart.Interpreter.Service
import Statechart.Script.Behaviour

-- Services as they are scripted.

namespace Statechart.Script

-- A value that may come from the context or from the event.
inductive Template
  | literal (j : Json)
  | var (name : String)
  | data
  deriving DecidableEq, Inhabited

def Template.value (x : Context) (e : Event) : Template → Json
  | literal j => j
  | var v => .int (x.get v).toInt
  | data => e.data

-- The result is `ok` if the condition holds, or without one if there is an `ok`.
structure Outcome where
  condition : Option Condition := none
  ok : Option Template := none
  error : Option Template := none
  deriving Inhabited

namespace Outcome

def succeeds (o : Outcome) (x : Context) (e : Event) : Bool :=
  match o.condition with
  | some c => c.holds x e
  | none => o.ok.isSome

def result (o : Outcome) (x : Context) (e : Event) : Except Json Json :=
  let value (t : Option Template) := t.elim .null (Template.value x e)
  if o.succeeds x e then .ok (value o.ok) else .error (value o.error)

end Outcome

-- What is posted on an event of the given name, or on any event.
structure Reaction where
  event : Option String
  posts : List Post
  deriving DecidableEq, Inhabited

-- Only the first reaction that fits counts.
def Reaction.respond (rs : List Reaction) (e : Event) : List Post :=
  match rs.find? fun r => r.event.all (· = e.name) with
  | some r => r.posts
  | none => []

structure CallbackScript where
  posts : List Post := []
  failure : Option ActionError := none
  reactions : Option (List Reaction) := none
  cancel : Option (List Post) := none
  deriving Inhabited

def CallbackScript.start (c : CallbackScript) (_ : Context) : CallbackStart where
  posts := c.posts
  outcome :=
    match c.failure with
    | some err => .error err
    | none => .ok ⟨c.reactions.map Reaction.respond, c.cancel⟩

-- Where a variable of a child's context comes from.
inductive Source
  | var (name : String)
  | data (key : String)
  deriving DecidableEq, Inhabited

def Source.value (x : Context) (e : Event) : Source → Int64
  | var v => x.get v
  | data key => (intField? e key).getD 0

-- A context with the given variables and nothing else.
def childContext (sources : List (String × Source)) (x : Context) (e : Event) : Context :=
  { vars := .ofList (sources.map fun s => (s.1, s.2.value x e)) }

-- `M` is the type of child machines.
inductive ServiceScript (M : Type)
  | promise (outcome : Outcome)
  | future (outcome : Outcome)
  -- the events once, or as often as the variable says
  | observable (events : List Event) (times : Option String)
  | callback (script : CallbackScript)
  | machine (child : M) (context : Option (List (String × Source)))

namespace ServiceScript

def emitted (events : List Event) (times : Option String) (x : Context) (_ : Event) : List Event :=
  match times with
  | none => events
  | some v => (List.replicate (x.get v).toInt.toNat events).flatten

variable {M N ε : Type}

-- `build` makes the child machine.
def service (build : M → Except ε N) : ServiceScript M → Except ε (Service Context N)
  | promise o => .ok (.promise o.result)
  | future o => .ok (.future o.result)
  | observable events times => .ok (.observable (emitted events times))
  | callback c => .ok (.callback c.start)
  | machine child context => do
    pure (.machine (← build child) (context.map childContext))

end ServiceScript

end Statechart.Script
