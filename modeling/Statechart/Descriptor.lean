import Statechart.Event

-- What a transition listens for: one name, every name in a dotted family, any event, or no event.

namespace Statechart

inductive Descriptor
  | exact (name : String)
  | family (stem : String)
  | any
  | always
  deriving DecidableEq, Inhabited

namespace Descriptor

-- `rest` if `s` is `stem ++ rest`.
def dropStem? (stem s : List Char) : Option (List Char) :=
  if stem <+: s then some (s.drop stem.length) else none

-- `*` is any event, `stem.*` a family, everything else one exact name.
def parse (s : String) : Descriptor :=
  if s = "*" then any
  else
    let cs := s.toList
    if ['.', '*'] <:+ cs then family (String.ofList (cs.take (cs.length - 2)))
    else exact s

protected def toString : Descriptor → String
  | exact name => name
  | family stem => stem ++ ".*"
  | any => "*"
  | always => "(always)"

def isExact (d : Descriptor) (name : String) : Bool := d = exact name

-- A family holds the names that go on with a dot after its stem.
def isWildcard (d : Descriptor) (name : String) : Bool :=
  match d with
  | any => true
  | family stem => ((dropStem? stem.toList name.toList).bind List.head?) = some '.'
  | exact _ | always => false

def isEventless (d : Descriptor) : Bool := d = always

end Descriptor

end Statechart
