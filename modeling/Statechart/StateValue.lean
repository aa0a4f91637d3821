import Statechart.Configuration.Basic
import Statechart.Json.Text
import Statechart.KeyPath

-- The active configuration as nested keys. A compound node with an active leaf is that leaf's key;
-- every other active node lists its active children with what is active below them.

namespace Statechart

inductive StateValue
  | leaf (key : String)
  | branch (entries : List (String × StateValue))
  deriving Inhabited

namespace StateValue

-- `depth` bounds how far down the tree goes on below `n`.
def under (t : Tree) (c : Configuration) : Nat → NodeIndex → StateValue
  | 0, _ => branch []
  | depth + 1, n =>
    let active := (t.children n).filter c.contains
    match (t.node n).kind with
    | .compound =>
      match active with
      | [] => branch []
      | k :: _ =>
        if (t.node k).isLeaf then leaf (t.node k).key
        else branch [((t.node k).key, under t c depth k)]
    | .parallel => branch (active.map fun k => ((t.node k).key, under t c depth k))
    | .atomic | .final | .history _ => branch []

def ofConfiguration (t : Tree) (c : Configuration) : StateValue := under t c t.height Tree.root

mutual

def matchesKeys : StateValue → List String → Bool
  | _, [] => true
  | leaf key, k :: rest => key = k && rest.isEmpty
  | branch entries, k :: rest => matchesSome entries k rest

def matchesSome : List (String × StateValue) → String → List String → Bool
  | [], _, _ => false
  | (key, value) :: more, k, rest => (key = k && value.matchesKeys rest) || matchesSome more k rest

end

-- Whether the dotted path is active.
def isAt (v : StateValue) (path : String) : Bool := v.matchesKeys (KeyPath.keys path)

mutual

def toJson : StateValue → Json
  | leaf key => .str key
  | branch entries => .obj (entriesToJson entries)

def entriesToJson : List (String × StateValue) → List (String × Json)
  | [] => []
  | (key, value) :: more => (key, value.toJson) :: entriesToJson more

end

-- A leaf stands between quotes as it is; a branch is written as JSON.
protected def toString : StateValue → String
  | leaf key => "\"" ++ key ++ "\""
  | v@(branch _) => v.toJson.text

end StateValue

end Statechart
