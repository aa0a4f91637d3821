import Statechart.Event
import Statechart.Time.Duration

-- Actions as a definition states them. A named action is looked up in the registry when it is
-- planned; the others are built in.

namespace Statechart

inductive Target
  | self
  | parent
  | actor (id : String)
  deriving DecidableEq, Inhabited

inductive Delay
  | fixed (d : Duration)
  | named (name : String)
  deriving DecidableEq, Inhabited

-- How a delay is written in the name of the event that reports it.
def Delay.label : Delay → String
  | fixed d => toString d.millis
  | named name => name

-- Without an event the one being processed is passed on.
structure Send where
  event : Option Event
  target : Target := .self
  delay : Option Delay := none
  id : Option String := none
  deriving DecidableEq, Inhabited

inductive Action
  | named (name : String)
  | raise (event : Event)
  | send (send : Send)
  | cancel (id : String)
  | log (label : String)
  | spawn (service id : String)
  | stop (id : String)
  deriving DecidableEq, Inhabited

-- Passes the current event on to an actor.
def Send.forward (actor : String) : Send := { event := none, target := .actor actor }

def Action.isDelayedSend : Action → Bool
  | send s => s.delay.isSome
  | _ => false

end Statechart
