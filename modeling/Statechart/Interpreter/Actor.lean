import Statechart.Turn

-- What an interpreter knows of the actors it owns.

namespace Statechart

inductive ActorStatus
  | starting
  | running
  | stopped
  deriving DecidableEq, Inhabited

-- The surroundings in which interpreters run.
structure Env where
  -- one instant for everything that happens in a call: a clock that goes on meanwhile is only
  -- considered between the microsteps of a `Course`, which may wait there
  now : Duration
  -- whether asynchronous tasks can be started
  hasTasks : Bool := false
  -- how many events are taken from one mailbox before the turn is broken off
  fuel : Nat := 1000000
  deriving DecidableEq, Inhabited

structure StartRequest (C : Type) where
  actor : String
  service : String
  -- after the assignments of the microstep
  context : C
  event : Event

-- Actors of type `A` are started from services of type `S` by machines with contexts `C`. What they
-- post in a turn goes to the mailbox of their owner.
class ActorModel (C : Type) (S : outParam Type) (A : Type) where
  start : Env → S → StartRequest C → Turn C (Except ActionError A)
  -- an actor that does nothing any more
  settled : A
  send : Env → Event → A → Turn C A
  stop : Env → A → Turn C A
  -- lets the actor do what is due
  poll : Env → A → Turn C A
  -- lets the asynchronous tasks come to their ends
  finishTasks : A → Turn C A
  status : A → ActorStatus

structure ArenaEntry (A : Type) where
  id : String
  -- whether the actor gets every external event of its owner
  autoForward : Bool := false
  actor : A

-- Actors in the order they were started.
abbrev Arena (A : Type) := List (ArenaEntry A)

namespace Arena

variable {A : Type}

def find? (arena : Arena A) (id : String) : Option A :=
  (List.find? (fun e => e.id = id) arena).map (·.actor)

def contains (arena : Arena A) (id : String) : Bool := (find? arena id).isSome

def erase (arena : Arena A) (id : String) : Arena A := arena.eraseP fun e => e.id = id

def update (arena : Arena A) (id : String) (a : A) : Arena A :=
  arena.map fun e => if e.id = id then { e with actor := a } else e

def ids (arena : Arena A) : List String := arena.map (·.id)

end Arena

end Statechart
