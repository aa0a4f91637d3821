import Statechart.Failure
import Statechart.Script.Context

-- Conditions on the context and the event, as guards are scripted.

namespace Statechart.Script

inductive Condition
  | const (b : Bool)
  | less (var : String) (n : Int64)
  | atLeast (var : String) (n : Int64)
  | equals (var : String) (n : Int64)
  | event (name : String)
  | data (key : String) (value : Json)
  | not (c : Condition)
  | all (cs : List Condition)
  | any (cs : List Condition)
  | fail (message : String)
  deriving Inhabited

namespace Condition

mutual

-- Conjunctions and disjunctions stop as soon as they are decided; a failure ends everything.
def eval (x : Context) (e : Event) : Condition → Except GuardError Bool
  | const b => .ok b
  | less v n => .ok (x.get v < n)
  | atLeast v n => .ok (n ≤ x.get v)
  | equals v n => .ok (x.get v = n)
  | event name => .ok (e.name = name)
  | data key value => .ok (e.data.field key = value)
  | not c => (eval x e c).map (!·)
  | all cs => evalAll x e cs
  | any cs => evalAny x e cs
  | fail message => .error ⟨message⟩

def evalAll (x : Context) (e : Event) : List Condition → Except GuardError Bool
  | [] => .ok true
  | c :: rest => do if ← eval x e c then evalAll x e rest else pure false

def evalAny (x : Context) (e : Event) : List Condition → Except GuardError Bool
  | [] => .ok false
  | c :: rest => do if ← eval x e c then pure true else evalAny x e rest

end

-- A condition that fails does not hold.
def holds (c : Condition) (x : Context) (e : Event) : Bool :=
  match c.eval x e with
  | .ok b => b
  | .error _ => false

end Condition

end Statechart.Script
