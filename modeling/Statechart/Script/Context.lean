import Statechart.Checkpoint.Written
import Statechart.Event

-- The contexts of scripted machines: integer variables and a trace of texts. A variable that was
-- never set is zero.

namespace Statechart.Script

structure Context where
  vars : SortedMap String Int64 := ∅
  trace : List String := []
  deriving DecidableEq, Inhabited

namespace Context

def get (c : Context) (v : String) : Int64 := (c.vars.find? v).getD 0

def set (c : Context) (v : String) (n : Int64) : Context := { c with vars := c.vars.insert v n }

def push (c : Context) (text : String) : Context := { c with trace := c.trace ++ [text] }

def varsToJson (c : Context) : Json := .obj (c.vars.entries.map fun e => (e.1, .int e.2.toInt))

def toJson (c : Context) : Json := .obj [("vars", c.varsToJson), ("trace", .strings c.trace)]

def int64? (d : Document) : Option Int64 :=
  (d.intWithin? Int64.minValue.toInt (Int64.maxValue.toInt + 1)).map .ofInt

def ofDocument? (d : Document) : Option Context :=
  match d.record? ["vars", "trace"] with
  | some [some vars, some trace] => do
    pure ⟨.ofList (← vars.entries? int64?), ← trace.list? Document.string?⟩
  | _ => none

open Binary

def toBytes (c : Context) : Bytes := writeMap writeInt64 c.vars ++ writeList writeString c.trace

def reader : Reader Context := do
  let vars ← readMap readInt64
  let trace ← readList readString
  pure ⟨vars, trace⟩

instance : Written Context where
  toJson := toJson
  ofDocument? := ofDocument?
  toBytes := toBytes
  reader := reader

end Context

-- A field of the event's payload, if it is an integer of 64 bits.
def intField? (e : Event) (key : String) : Option Int64 :=
  match e.data.field key with
  | .int n => if Int64.minValue.toInt ≤ n ∧ n ≤ Int64.maxValue.toInt then some (.ofInt n) else none
  | _ => none

end Statechart.Script
