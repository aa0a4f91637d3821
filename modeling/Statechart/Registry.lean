import Statechart.Event
import Statechart.Failure
import Statechart.Sorted.Map
import Statechart.Time.Duration

-- What the names in a definition stand for. `C` is the type of contexts, `S` that of services.

namespace Statechart

-- What an effect may do: queue an event for its own machine, send one to the machine that owns it,
-- or claim to complete, which only an actor's sender can.
inductive Command
  | send (event : Event)
  | sendParent (event : Event)
  | resolve (data : Json)
  deriving DecidableEq, Inhabited

structure EffectPlan where
  commands : List Command := []
  failure : Option ActionError := none
  deriving DecidableEq, Inhabited

-- Assignments are applied while a microstep is planned, effects run when it is committed.
inductive NamedAction (C : Type)
  | assign (update : C → Event → C)
  | effect (run : C → Event → EffectPlan)

abbrev Table (α : Type) := SortedMap String α

structure Registry (C S : Type) where
  guards : Table (C → Event → Except GuardError Bool) := ∅
  actions : Table (NamedAction C) := ∅
  services : Table S := ∅
  delays : Table (C → Event → Duration) := ∅

namespace Registry

variable {C S : Type}

instance : Inhabited (Registry C S) := ⟨{}⟩

def hasGuard (r : Registry C S) (name : String) : Bool := (r.guards.find? name).isSome
def hasAction (r : Registry C S) (name : String) : Bool := (r.actions.find? name).isSome
def hasService (r : Registry C S) (name : String) : Bool := (r.services.find? name).isSome
def hasDelay (r : Registry C S) (name : String) : Bool := (r.delays.find? name).isSome

end Registry

end Statechart
