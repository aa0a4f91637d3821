import Statechart.Config
import Statechart.Domain
import Statechart.Registry

-- Choosing the transitions that an event enables.

namespace Statechart

-- One evaluation of a named guard.
structure GuardCheck where
  guard : String
  event : String
  isRegistered : Bool
  outcome : Except GuardError Bool

namespace GuardCheck

def result (g : GuardCheck) : Except ExecutionError Bool :=
  g.outcome.mapError (.guard g.guard g.event)

def error? (g : GuardCheck) : Option ExecutionError :=
  match g.result with
  | .error e => some e
  | .ok _ => none

end GuardCheck

-- What evaluating guards one after the other came to: every named guard that was evaluated, and
-- the answer or the error that ended it.
structure Evaluation (α : Type) where
  checks : List GuardCheck := []
  result : Except ExecutionError α

namespace Evaluation

variable {α β : Type}

protected def pure (a : α) : Evaluation α := { result := .ok a }

protected def bind (x : Evaluation α) (f : α → Evaluation β) : Evaluation β :=
  match x.result with
  | .error e => { checks := x.checks, result := .error e }
  | .ok a =>
    let y := f a
    { checks := x.checks ++ y.checks, result := y.result }

instance : Monad Evaluation where
  pure := Evaluation.pure
  bind := Evaluation.bind

-- Failures that did not end the evaluation.
def guardErrors (x : Evaluation α) : List ExecutionError := x.checks.filterMap (·.error?)

end Evaluation

variable {C S : Type}

namespace Selection

section Guards

variable (r : Registry C S) (policy : GuardPolicy) (c : Configuration) (x : C) (e : Event)

def check (name : String) : GuardCheck :=
  match r.guards.find? name with
  | some guard => ⟨name, e.name, true, guard x e⟩
  | none => ⟨name, e.name, false, .error ⟨"guard is not registered"⟩⟩

def evaluate (name : String) : Evaluation Bool :=
  let g := check r x e name
  match g.result, policy with
  | .ok passed, _ => { checks := [g], result := .ok passed }
  | .error _, .treatAsFalse => { checks := [g], result := .ok false }
  | .error err, .propagate => { checks := [g], result := .error err }

def passes (u : Transition) : Evaluation Bool :=
  match u.guard with
  | none => pure true
  | some (.active n) => pure (c.contains n)
  | some (.named name) => evaluate r policy x e name

-- The first transition whose guard passes; the guards after it are not evaluated.
def firstEnabled : List Transition → Evaluation (Option Transition)
  | [] => pure none
  | u :: rest => do if ← passes r policy c x e u then pure (some u) else firstEnabled rest

end Guards

-- The transitions of one node that listen for the event: exact names come before wildcards, each
-- group in document order. Without an event these are the ones that are always enabled.
def candidates (n : Node) (e : Event) (eventless : Bool) : List Transition :=
  if eventless then n.transitions.filter (·.on.isEventless)
  else n.transitions.filter (·.on.isExact e.name) ++ n.transitions.filter (·.on.isWildcard e.name)

-- On the way from a leaf to the root.
def candidatesFrom (t : Tree) (e : Event) (eventless : Bool) (leaf : NodeIndex) : List Transition :=
  (t.path leaf).flatMap fun n => candidates (t.node n) e eventless

def addNew (found : List Transition) : Option Transition → List Transition
  | none => found
  | some u => if found.any (·.isSame u) then found else found ++ [u]

-- The transition that each leaf enables, in leaf order and without repetition.
def enabled (t : Tree) (r : Registry C S) (policy : GuardPolicy) (c : Configuration) (x : C)
    (e : Event) (eventless : Bool) : Evaluation (List Transition) :=
  (c.leaves t).foldlM (fun found leaf => do
    pure (addNew found (← firstEnabled r policy c x e (candidatesFrom t e eventless leaf)))) []

def conflict (t : Tree) (c : Configuration) (u v : Transition) : Bool :=
  c.toList.any fun n => t.exits u n && t.exits v n

-- Takes up `u` in place of the kept transitions it conflicts with if it comes from below each of
-- them, and drops it otherwise.
def keep (t : Tree) (c : Configuration) (kept : List Transition) (u : Transition) :
    List Transition :=
  if kept.all fun v => !conflict t c u v || t.isDescendant u.source v.source then
    kept.filter (fun v => !conflict t c u v) ++ [u]
  else kept

def withoutConflicts (t : Tree) (c : Configuration) (us : List Transition) : List Transition :=
  us.foldl (keep t c) []

end Selection

-- The enabled transitions that can be taken together.
def select (t : Tree) (r : Registry C S) (policy : GuardPolicy) (c : Configuration) (x : C)
    (e : Event) (eventless : Bool) : Evaluation (List Transition) := do
  pure (Selection.withoutConflicts t c (← Selection.enabled t r policy c x e eventless))

end Statechart
