import Statechart.Configuration.Basic
import Statechart.Sorted.Map

-- What was active below a node when it was last exited, kept for each of its history children.

namespace Statechart

abbrev History := SortedMap NodeIndex NodeSet

namespace History

-- Shallow history remembers the active children of its parent `n`, deep history the active leaves
-- below it.
def remembered (t : Tree) (c : Configuration) (n : NodeIndex) : HistoryKind → NodeSet
  | .shallow => .ofList ((t.children n).filter c.contains)
  | .deep => c.filter fun m => (t.node m).isLeaf && t.isDescendant m n

def recordChild (t : Tree) (c : Configuration) (n : NodeIndex) (h : History) (child : NodeIndex) :
    History :=
  match (t.node child).kind with
  | .history kind => h.insert child (remembered t c n kind)
  | _ => h

-- Records the exit of `exited`; `c` is the configuration before it.
def recordExit (t : Tree) (c : Configuration) (h : History) (exited : List NodeIndex) : History :=
  exited.foldl (fun h n => (t.children n).foldl (recordChild t c n) h) h

end History

end Statechart
