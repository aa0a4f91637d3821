import Statechart.StateValue

-- What an interpreter shows of itself after a macrostep.

namespace Statechart

structure Snapshot (C : Type) where
  value : StateValue
  -- ids of the active nodes, in document order
  configuration : List String
  context : C
  event : Option Event
  changed : Bool
  done : Bool
  -- of all active nodes together
  tags : SortedSet String

namespace Snapshot

variable {C : Type}

def isAt (s : Snapshot C) (path : String) : Bool := s.value.isAt path

def hasTag (s : Snapshot C) (tag : String) : Bool := s.tags.contains tag

def toJson (context : C → Json) (s : Snapshot C) : Json :=
  .obj [("value", s.value.toJson), ("configuration", .strings s.configuration),
    ("context", context s.context), ("event", s.event.elim .null Event.toJson),
    ("changed", .bool s.changed), ("done", .bool s.done), ("tags", .strings s.tags.toList)]

end Snapshot

end Statechart
