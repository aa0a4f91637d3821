import Statechart.Definition.State
import Statechart.KeyPath

-- The states of a definition laid out in document order, with the references between them.

namespace Statechart.Definition

-- A state at its place.
structure Placed where
  spec : StateSpec
  key : String
  id : String
  -- nearest first
  ancestors : List NodeIndex
  children : List NodeIndex
  deriving DecidableEq, Inhabited

-- Where the children of a state begin, one after the other, when the first begins at `next`.
def childIndices (next : NodeIndex) : List State → List NodeIndex
  | [] => []
  | s :: rest => next :: childIndices (next + s.size) rest

mutual

-- `path` is the dotted key path and the id of a state that has no id of its own; `index` is the
-- place of `s` itself.
def place (path key : String) (ancestors : List NodeIndex) (index : NodeIndex) : State → List Placed
  | .mk spec cs =>
    { spec := spec
      key := key
      id := spec.id.getD path
      ancestors := ancestors
      children := childIndices (index + 1) cs } ::
      placeAll path (index :: ancestors) (index + 1) cs

def placeAll (path : String) (ancestors : List NodeIndex) (index : NodeIndex) :
    List State → List Placed
  | [] => []
  | s :: rest =>
    place (path ++ "." ++ s.spec.key) s.spec.key ancestors index s ++
      placeAll path ancestors (index + s.size) rest

end

abbrev Layout := Array Placed

namespace Layout

def ofState (machineId : String) (root : State) : Layout := (place machineId "" [] 0 root).toArray

def placed (l : Layout) (n : NodeIndex) : Placed := l[n]?.getD default

-- The first state with the id.
def indexOf? (l : Layout) (id : String) : Option NodeIndex := l.findIdx? (·.id = id)

-- The first child with the key.
def childWithKey? (l : Layout) (n : NodeIndex) (key : String) : Option NodeIndex :=
  (l.placed n).children.find? fun c => (l.placed c).key = key

def descend? (l : Layout) (n : NodeIndex) (path : String) : Option NodeIndex :=
  (KeyPath.split path).foldlM (l.childWithKey? · ·) n

-- `#id` is the state with that id, `.path` leads down from the source, and any other path leads
-- down from the parent of the source.
def target? (l : Layout) (source : NodeIndex) (target : String) : Option NodeIndex :=
  match target.toList with
  | '#' :: id => l.indexOf? (String.ofList id)
  | '.' :: path => l.descend? source (String.ofList path)
  | _ => l.descend? ((l.placed source).ancestors.headD source) target

-- The state with the id, which may be written with a leading `#`.
def reference? (l : Layout) (reference : String) : Option NodeIndex :=
  match reference.toList with
  | '#' :: id => l.indexOf? (String.ofList id)
  | _ => l.indexOf? reference

def kind (l : Layout) (n : NodeIndex) : NodeKind :=
  match (l.placed n).spec.shape with
  | .auto => if (l.placed n).children.isEmpty then .atomic else .compound
  | .parallel => .parallel
  | .final => .final
  | .history k => .history k

end Layout

end Statechart.Definition
