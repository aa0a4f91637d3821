-- What can be wrong with a definition.

namespace Statechart.Definition

inductive Problem
  | duplicateId (id : String)
  | missingInitial (node : String)
  | invalidInitial (node initial : String)
  | emptyParallel (node : String)
  | finalWithChildren (node : String)
  | finalInParallel (node : String)
  | historyWithChildren (node : String)
  | historyAtRoot (node : String)
  | invalidHistoryTarget (node target : String)
  | unresolvedTarget (node target : String)
  | unresolvedStateReference (node reference : String)
  | conflictingTargets (node event : String)
  | unknownGuard (node guard : String)
  | unknownAction (node action : String)
  | unknownService (node service : String)
  | unknownDelay (node delay : String)
  | missingDefinition
  | missingContext
  deriving DecidableEq, Inhabited

def Problem.message : Problem → String
  | duplicateId id => s!"state id '{id}' is used more than once"
  | missingInitial n => s!"compound state '{n}' has no initial state. Call .initial(key)"
  | invalidInitial n i => s!"initial state '{i}' of '{n}' is not a child state"
  | emptyParallel n => s!"parallel state '{n}' has no regions"
  | finalWithChildren n => s!"final state '{n}' cannot have children"
  | finalInParallel n => s!"final state '{n}' cannot be a region of a parallel state"
  | historyWithChildren n => s!"history state '{n}' cannot have children"
  | historyAtRoot n => s!"history state '{n}' needs a parent state"
  | invalidHistoryTarget n t =>
    s!"default target '{t}' of history state '{n}' is outside its parent"
  | unresolvedTarget n t => s!"target '{t}' of a transition on '{n}' does not resolve to a state"
  | unresolvedStateReference n r =>
    s!"in-state reference '{r}' on '{n}' does not resolve to a state"
  | conflictingTargets n e =>
    s!"transition on '{e}' from '{n}' targets states that cannot be active together"
  | unknownGuard n g => s!"guard '{g}' used by '{n}' is not registered"
  | unknownAction n a => s!"action '{a}' used by '{n}' is not registered"
  | unknownService n s => s!"service '{s}' used by '{n}' is not registered"
  | unknownDelay n d => s!"delay '{d}' used by '{n}' is not registered"
  | missingDefinition => "no state definition given. Call .definition(state)"
  | missingContext => "no initial context given. Call .context(value)"

-- All problems of a definition in one line.
def report (problems : List Problem) : String :=
  "invalid machine definition: " ++ "; ".intercalate (problems.map (·.message))

-- Succeeds if there is no problem.
def check (problems : List Problem) : Except (List Problem) Unit :=
  if problems.isEmpty then .ok () else .error problems

end Statechart.Definition
