-- Dotted paths of keys.

namespace Statechart.KeyPath

def splitChars : List Char → List (List Char)
  | [] => [[]]
  | c :: rest =>
    if c = '.' then [] :: splitChars rest
    else
      match splitChars rest with
      | [] => [[c]]
      | s :: more => (c :: s) :: more

-- The keys between the dots. There is one more of them than there are dots.
def split (path : String) : List String := (splitChars path.toList).map String.ofList

-- Empty keys are passed over.
def keys (path : String) : List String := (split path).filter (· ≠ "")

end Statechart.KeyPath
