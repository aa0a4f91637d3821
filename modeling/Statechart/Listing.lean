import Statechart.Registry
import Statechart.Text.Literal

-- The names that a registry provides, on one line. Delays are left out.

namespace Statechart.Registry

variable {C S : Type}

def names (label : String) (table : Table α) : String :=
  label ++ ": [" ++ ", ".intercalate (table.keys.map Text.literal) ++ "]"

def listing (r : Registry C S) : String :=
  "Registry \x7b " ++ names "guards" r.guards ++ ", " ++ names "actions" r.actions ++ ", " ++
    names "services" r.services ++ ", .. \x7d"

end Statechart.Registry
