import Statechart.Json.Text
import Statechart.Registry
import Statechart.Script.Condition

-- Assignments, effects and delays as they are scripted.

namespace Statechart.Script

inductive Update
  | add (var : String) (n : Int64)
  | mul (var : String) (n : Int64)
  | set (var : String) (n : Int64)
  -- takes over an integer of the payload, if it is one
  | ofData (var key : String)
  | push (text : String)
  | pushEvent
  deriving DecidableEq, Inhabited

-- Arithmetic wraps around.
def Update.apply (e : Event) (x : Context) : Update → Context
  | add v n => x.set v (x.get v + n)
  | mul v n => x.set v (x.get v * n)
  | set v n => x.set v n
  | ofData v key => (intField? e key).elim x (x.set v)
  | push text => x.push text
  | pushEvent => x.push (e.name ++ " " ++ e.data.text)

inductive Operation
  | command (c : Command)
  | fail (message : String)
  | failIf (condition : Condition) (message : String)
  deriving Inhabited

-- The commands before the first operation that fails.
def Operation.plan (x : Context) (e : Event) : List Operation → EffectPlan
  | [] => {}
  | command c :: rest =>
    let p := plan x e rest
    { p with commands := c :: p.commands }
  | fail message :: _ => { failure := some ⟨message⟩ }
  | failIf condition message :: rest =>
    if condition.holds x e then { failure := some ⟨message⟩ } else plan x e rest

inductive ActionScript
  | assign (updates : List Update)
  | effect (operations : List Operation)
  deriving Inhabited

def ActionScript.action : ActionScript → NamedAction Context
  | assign updates => .assign fun x e => updates.foldl (Update.apply e) x
  | effect operations => .effect fun x e => Operation.plan x e operations

inductive DelayScript
  | fixed (d : Duration)
  -- the variable's milliseconds, none if it is negative
  | millis (var : String)
  deriving DecidableEq, Inhabited

def DelayScript.delay (d : DelayScript) (x : Context) (_ : Event) : Duration :=
  match d with
  | fixed d => d
  | millis v => .ofMillis (x.get v).toInt.toNat

end Statechart.Script
