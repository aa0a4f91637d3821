import Statechart.Action
import Statechart.Tree.Node

-- Events that wait for their time, earliest first. Events for the same instant keep the order in
-- which they were scheduled.

namespace Statechart

structure Scheduled where
  event : Event
  target : Target
  -- the node whose exit cancels the event
  owner : NodeIndex
  id : Option String
  deadline : Duration
  deriving DecidableEq, Inhabited

-- `ticket` numbers the events in scheduling order.
structure Pending extends Scheduled where
  ticket : Nat
  deriving DecidableEq, Inhabited

def Pending.isBefore (p q : Pending) : Bool :=
  p.deadline < q.deadline || (p.deadline = q.deadline && p.ticket < q.ticket)

structure Scheduler where
  queue : List Pending := []
  lastTicket : Nat := 0
  deriving DecidableEq, Inhabited

namespace Scheduler

def insertPending (p : Pending) : List Pending → List Pending
  | [] => [p]
  | q :: rest => if q.isBefore p then q :: insertPending p rest else p :: q :: rest

-- Two events with an id and the same owner are the same timer.
def sameTimer (e : Scheduled) (p : Pending) : Bool :=
  e.id.isSome && p.id = e.id && p.owner = e.owner

def schedule (s : Scheduler) (e : Scheduled) : Scheduler where
  queue := insertPending { e with ticket := s.lastTicket + 1 }
    (s.queue.filter fun p => !sameTimer e p)
  lastTicket := s.lastTicket + 1

-- Removes what `p` holds for.
def cancelWhere (s : Scheduler) (p : Pending → Bool) : Scheduler :=
  { s with queue := s.queue.filter fun e => !p e }

def cancelId (s : Scheduler) (id : String) : Scheduler := s.cancelWhere fun e => e.id = some id

def cancelOwner (s : Scheduler) (owner : NodeIndex) : Scheduler :=
  s.cancelWhere fun e => e.owner = owner

def cancelAll (s : Scheduler) : Scheduler := s.cancelWhere fun _ => true

-- The earliest event, if it is due.
def popDue? (s : Scheduler) (now : Duration) : Option (Scheduled × Scheduler) :=
  match s.queue with
  | [] => none
  | e :: rest => if e.deadline ≤ now then some (e.toScheduled, { s with queue := rest }) else none

def nextDeadline? (s : Scheduler) : Option Duration := s.queue.head?.map (·.deadline)

def size (s : Scheduler) : Nat := s.queue.length

end Scheduler

end Statechart
