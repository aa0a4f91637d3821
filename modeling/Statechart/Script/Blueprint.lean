import Statechart.Definition.Build
import Statechart.Interpreter.Nested
import Statechart.Script.Services

-- A machine together with scripts for all that its definition names.

namespace Statechart.Script

open Definition

structure Blueprint (M : Type) where
  id : String
  root : Option State := none
  guards : List (String × Condition) := []
  actions : List (String × ActionScript) := []
  delays : List (String × DelayScript) := []
  services : List (String × ServiceScript M) := []
  context : Option Context := none
  config : Config := {}

namespace Blueprint

variable {M N : Type} (build : M → Except (List Problem) N)

def service (s : String × ServiceScript M) :
    Except (List Problem) (String × Service Context N) := do
  pure (s.1, ← s.2.service build)

-- Of scripts for the same name the last one counts. Child machines are built first.
def registry (b : Blueprint M) : Except (List Problem) (Registry Context (Service Context N)) := do
  let services ← b.services.mapM (service build)
  pure {
    guards := .ofList (b.guards.map fun g => (g.1, fun x e => g.2.eval x e))
    actions := .ofList (b.actions.map fun a => (a.1, a.2.action))
    services := .ofList services
    delays := .ofList (b.delays.map fun d => (d.1, d.2.delay)) }

def machine (b : Blueprint M) : Except (List Problem) (Machine Context (Service Context N)) := do
  Machine.build b.id b.root (← b.registry build) b.context b.config

end Blueprint

-- Blueprints of child machines of a machine at level `n`.
def ChildBlueprint : Nat → Type
  | 0 => Empty
  | n + 1 => Blueprint (ChildBlueprint n)

abbrev NestedBlueprint (n : Nat) : Type := Blueprint (ChildBlueprint n)

def ChildBlueprint.build :
    (n : Nat) → ChildBlueprint n → Except (List Problem) (ChildMachine Context n)
  | 0, b => nomatch b
  | n + 1, b => Blueprint.machine (ChildBlueprint.build n) b

namespace NestedBlueprint

variable {n : Nat}

def registry (b : NestedBlueprint n) :
    Except (List Problem) (Registry Context (NestedService Context n)) :=
  Blueprint.registry (ChildBlueprint.build n) b

def machine (b : NestedBlueprint n) : Except (List Problem) (NestedMachine Context n) :=
  Blueprint.machine (ChildBlueprint.build n) b

end NestedBlueprint

end Statechart.Script
