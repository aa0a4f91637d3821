-- What can go wrong while a machine runs.

namespace Statechart

structure GuardError where
  message : String
  deriving DecidableEq, Inhabited

structure ActionError where
  message : String
  deriving DecidableEq, Inhabited

inductive ExecutionError
  | guard (guard event : String) (cause : GuardError)
  | action (action event : String) (cause : ActionError)
  | unknownAction (action : String)
  | unknownService (service : String)
  | unknownDelay (delay : String)
  | delayOverflow (event : String)
  | microstepLimit (limit : Nat) (event : String)
  deriving DecidableEq, Inhabited

namespace ExecutionError

def message : ExecutionError → String
  | guard g e cause => s!"guard '{g}' failed on '{e}': {cause.message}"
  | action a e cause => s!"action '{a}' failed on '{e}': {cause.message}"
  | unknownAction a => s!"action '{a}' is not registered"
  | unknownService s => s!"service '{s}' is not registered"
  | unknownDelay d => s!"delay '{d}' is not registered"
  | delayOverflow e => s!"delay of event '{e}' is out of range"
  | microstepLimit n e => s!"macrostep exceeded {n} microsteps on '{e}'"

def code : ExecutionError → String
  | guard .. => "GUARD_FAILED"
  | action .. => "ACTION_FAILED"
  | unknownAction _ => "UNKNOWN_ACTION"
  | unknownService _ => "UNKNOWN_SERVICE"
  | unknownDelay _ => "UNKNOWN_DELAY"
  | delayOverflow _ => "DELAY_OVERFLOW"
  | microstepLimit .. => "MICROSTEP_LIMIT"

-- The message of the guard's or action's own error.
def cause? : ExecutionError → Option String
  | guard _ _ cause => some cause.message
  | action _ _ cause => some cause.message
  | _ => none

end ExecutionError

end Statechart
