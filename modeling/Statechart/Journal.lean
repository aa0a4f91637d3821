import Statechart.Failure
import Statechart.Snapshot

-- What can be observed of running machines, entry by entry.

namespace Statechart

inductive Warning
  | guardFailed (error : ExecutionError)
  | executionError
  | interpreterFailed
  | serviceNotStarted
  | unknownActor
  | noParent
  | noTasks
  deriving DecidableEq, Inhabited

def Warning.text : Warning → String
  | guardFailed e => e.message ++ "; treating guard as failed"
  | executionError => "execution error"
  | interpreterFailed => "interpreter failed"
  | serviceNotStarted => "service failed to start"
  | unknownActor => "send to unknown actor dropped"
  | noParent => "no parent to send to, event dropped"
  | noTasks => "cannot start future service: there is no reactor running, " ++
      "must be called from the context of a Tokio 1.x runtime"

inductive Entry (C : Type)
  -- a registered guard is evaluated
  | guard (name event : String)
  -- an effect is run, and what its commands came to
  | effect (name : String) (event : Event) (context : C)
  | sentParent (accepted : Bool)
  | resolved (accepted : Bool)
  -- a service computes its result or starts its callback
  | service (name : String) (event : Event) (context : C)
  | callback (name actor : String) (context : C)
  | received (event : Event) (actor : String)
  | cancelled (actor : String)
  | logged (label machine event : String)
  -- a listener is called
  | notified (subscription : Nat) (snapshot : Snapshot C)
  | reported (error : ExecutionError)
  | finished (data : Json)
  | warned (warning : Warning)

end Statechart
