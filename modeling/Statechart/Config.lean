import Statechart.Json.Document

-- How a machine reacts to failures, and how long a macrostep may get.

namespace Statechart

-- `abort` gives up the failing microstep, `fatal` stops the interpreter.
inductive ErrorPolicy
  | abort
  | fatal
  deriving DecidableEq, Inhabited

-- A failing guard either counts as not passing or ends the macrostep.
inductive GuardPolicy
  | treatAsFalse
  | propagate
  deriving DecidableEq, Inhabited

structure Config where
  errorPolicy : ErrorPolicy := .abort
  guardPolicy : GuardPolicy := .treatAsFalse
  maxMicrosteps : Nat := 1000
  deriving DecidableEq, Inhabited

def ErrorPolicy.name : ErrorPolicy → String
  | abort => "abort"
  | fatal => "fatal"

def GuardPolicy.name : GuardPolicy → String
  | treatAsFalse => "treat_as_false"
  | propagate => "propagate"

def ErrorPolicy.ofDocument? (d : Document) : Option ErrorPolicy :=
  match d.variant? [abort.name, fatal.name] with
  | some s => some (if s = abort.name then abort else fatal)
  | none => none

def GuardPolicy.ofDocument? (d : Document) : Option GuardPolicy :=
  match d.variant? [treatAsFalse.name, propagate.name] with
  | some s => some (if s = treatAsFalse.name then treatAsFalse else propagate)
  | none => none

namespace Config

def toJson (c : Config) : Json :=
  .obj [("error_policy", .str c.errorPolicy.name), ("guard_errors", .str c.guardPolicy.name),
    ("max_microsteps", .int c.maxMicrosteps)]

-- A field that is left out has its default value.
def ofDocument? (d : Document) : Option Config :=
  match d.record? ["error_policy", "guard_errors", "max_microsteps"] with
  | some [e, g, n] => do
    let c : Config := {}
    pure {
      errorPolicy := ← e.elim (some c.errorPolicy) ErrorPolicy.ofDocument?
      guardPolicy := ← g.elim (some c.guardPolicy) GuardPolicy.ofDocument?
      maxMicrosteps := ← n.elim (some c.maxMicrosteps) (Document.natBelow? UInt64.size) }
  | _ => none

end Config

end Statechart
