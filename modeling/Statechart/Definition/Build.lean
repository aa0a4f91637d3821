import Statechart.Definition.Lowering
import Statechart.Definition.References
import Statechart.Definition.Structure
import Statechart.Machine

-- From definitions to trees and machines. What is wrong is reported all at once.

namespace Statechart

open Definition

namespace Definition.State

def problems (machineId : String) (root : State) : List Problem :=
  let l := Layout.ofState machineId root
  let lowered := l.lower machineId
  l.duplicates ++ lowered.problems ++ structureProblems lowered.value

def build (machineId : String) (root : State) : Except (List Problem) Tree := do
  check (root.problems machineId)
  pure ((Layout.ofState machineId root).lower machineId).value

end Definition.State

namespace Machine

variable {C S : Type}

-- Binds a tree to a registry that provides every name in it.
def ofTree (t : Tree) (r : Registry C S) (x : C) (config : Config) :
    Except (List Problem) (Machine C S) := do
  check (referenceProblems r t)
  pure { tree := t, registry := r, context := x, config := config }

def missing (root : Option State) (x : Option C) : List Problem :=
  (if root.isNone then [.missingDefinition] else []) ++
    (if x.isNone then [.missingContext] else [])

-- A missing definition or context is reported before anything else is looked at, and names are only
-- looked up once the tree is sound.
def build (machineId : String) (root : Option State) (r : Registry C S) (x : Option C)
    (config : Config) : Except (List Problem) (Machine C S) :=
  match root, x with
  | some root, some x => do ofTree (← root.build machineId) r x config
  | _, _ => .error (missing root x)

end Machine

end Statechart
