import Statechart.Checkpoint.Uuid
import Statechart.Macrostep
import Statechart.Time.Timestamp

-- The state of a machine written down by node ids, so that it keeps its meaning as long as the
-- definition keeps its ids. Actors and delayed events are not part of it.

namespace Statechart

structure Checkpoint (C : Type) where
  version : UInt32
  id : Uuid
  timestamp : Timestamp
  machineId : String
  configuration : List String
  -- what each history node has recorded
  history : SortedMap String (List String)
  context : C
  done : Bool

inductive CheckpointError
  | malformed
  | unsupportedVersion (found : UInt32)
  | machineMismatch (found expected : String)
  | unknownNode (id : String)
  | illegalConfiguration
  | notHistory (id : String)
  | alreadyStarted
  -- the delayed sends of the active nodes cannot be planned
  | notResumable (error : ExecutionError)
  deriving DecidableEq, Inhabited

namespace Checkpoint

-- The only version there is.
def currentVersion : UInt32 := 1

end Checkpoint

namespace CheckpointError

def invalid (reason : String) : String := "Checkpoint validation failed: " ++ reason

def message : CheckpointError → String
  | malformed => "Deserialization failed"
  | unsupportedVersion found =>
    s!"Unsupported checkpoint version {found}, supported: {Checkpoint.currentVersion}"
  | machineMismatch found expected =>
    s!"Checkpoint belongs to machine '{found}', expected '{expected}'"
  | unknownNode id => s!"Unknown node '{id}' in checkpoint"
  | illegalConfiguration => invalid "configuration is not legal for this definition"
  | notHistory id => invalid s!"'{id}' is not a history node"
  | alreadyStarted => invalid "interpreter has already been started"
  | notResumable e => invalid e.message

end CheckpointError

namespace Checkpoint

variable {C : Type} (t : Tree)

def capture (id : Uuid) (timestamp : Timestamp) (s : MachineState C) : Checkpoint C where
  version := currentVersion
  id := id
  timestamp := timestamp
  machineId := t.machineId
  configuration := t.ids s.configuration.toList
  history := .ofList (s.history.entries.map fun e => ((t.node e.1).id, t.ids e.2.toList))
  context := s.context
  done := s.done

def checkVersion (c : Checkpoint C) : Except CheckpointError (Checkpoint C) :=
  if c.version = currentVersion then .ok c else .error (.unsupportedVersion c.version)

def nodes (ids : List String) : Except CheckpointError NodeSet :=
  match t.indicesOf ids with
  | .ok ns => .ok (.ofList ns)
  | .error e => .error (.unknownNode e.id)

def historyNode (id : String) : Except CheckpointError NodeIndex :=
  match t.indexOf? id with
  | none => .error (.unknownNode id)
  | some n => if (t.node n).isHistory then .ok n else .error (.notHistory id)

def addRecord (h : History) (e : String × List String) : Except CheckpointError History := do
  let n ← historyNode t e.1
  pure (h.insert n (← nodes t e.2))

-- The state that a checkpoint of this tree's machine describes. What the machine ended with is not
-- written down.
def state (c : Checkpoint C) : Except CheckpointError (MachineState C) := do
  let _ ← c.checkVersion
  if c.machineId ≠ t.machineId then throw (.machineMismatch c.machineId t.machineId)
  let configuration : Configuration ← nodes t c.configuration
  if !configuration.isLegal t then throw .illegalConfiguration
  let history ← c.history.entries.foldlM (addRecord t) ∅
  pure { configuration := configuration, context := c.context, history := history, done := c.done }

end Checkpoint

end Statechart
