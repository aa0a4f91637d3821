import Statechart.Json.Document
import Statechart.Json.Text

-- Events: a name, by which transitions are chosen, and a payload.

namespace Statechart

structure Event where
  name : String
  data : Json := .null
  deriving DecidableEq, Inhabited

namespace Event

-- The event a machine is started with.
def init : Event := { name := "init" }

-- The event the exit actions see when a running interpreter is stopped.
def stop : Event := { name := "stop" }

-- A compound or parallel node has completed.
def doneState (node : String) (data : Json) : Event := ⟨"done.state." ++ node, data⟩

-- An invoked or spawned actor has completed.
def doneInvoke (actor : String) (data : Json) : Event := ⟨"done.invoke." ++ actor, data⟩

-- An invoked or spawned actor has failed.
def errorPlatform (actor : String) (data : Json) : Event := ⟨"error.platform." ++ actor, data⟩

-- Name of the event by which a timer of `node` reports that its delay has passed.
def afterName (delay node : String) : String := "after(" ++ delay ++ ")#" ++ node

def toJson (e : Event) : Json := .obj [("name", .str e.name), ("data", e.data)]

-- The payload may be left out.
def ofDocument? (d : Document) : Option Event :=
  match d.record? ["name", "data"] with
  | some [some name, none] => name.string?.map ({ name := · })
  | some [some name, some data] => do pure ⟨← name.string?, ← data.payload? 1⟩
  | _ => none

end Event

end Statechart
