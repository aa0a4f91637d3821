import Statechart.Interpreter.Service

-- Machines that own machines, `n` levels deep. At level zero there are no child machines.

namespace Statechart

-- What a service at level `n` can run as a child.
def ChildMachine (C : Type) : Nat → Type
  | 0 => Empty
  | n + 1 => Machine C (Service C (ChildMachine C n))

-- Running children of an actor at level `n`.
def Child (C : Type) : Nat → Type
  | 0 => Empty
  | n + 1 => Interpreter C (Service C (ChildMachine C n)) (Actor (Child C n))

abbrev NestedService (C : Type) (n : Nat) : Type := Service C (ChildMachine C n)

abbrev NestedMachine (C : Type) (n : Nat) : Type := Machine C (NestedService C n)

abbrev NestedInterpreter (C : Type) (n : Nat) : Type :=
  Interpreter C (NestedService C n) (Actor (Child C n))

-- Every interpreter can be a child of another one.
instance [ActorModel C S A] : ChildModel C (Machine C S) (Interpreter C S A) where
  launch env m id x := ((Interpreter.spawned ((x.map m.withContext).getD m) id).start env)
  send env e i := i.send env e
  stop env i := i.stop env
  poll env i := i.poll env
  finishTasks i := i.finishTasks
  status i :=
    match i.shell.status with
    | .notStarted => .starting
    | .running => .running
    | .stopped => .stopped

instance : ChildModel C Empty Empty where
  launch _ m := nomatch m
  send _ _ i := nomatch i
  stop _ i := nomatch i
  poll _ i := nomatch i
  finishTasks i := nomatch i
  status i := nomatch i

instance childModel (C : Type) : (n : Nat) → ChildModel C (ChildMachine C n) (Child C n)
  | 0 => inferInstanceAs (ChildModel C Empty Empty)
  | n + 1 =>
    have := childModel C n
    inferInstanceAs (ChildModel C (NestedMachine C n) (NestedInterpreter C n))

end Statechart
