import Statechart.Definition.Layout
import Statechart.Definition.Problem
import Statechart.Tree.Basic

-- From a laid out state to a node. Everything that cannot be resolved is reported, and a transition
-- with such a reference is left out.

namespace Statechart.Definition

-- A value together with the problems met on the way to it.
structure Lowered (α : Type) where
  value : α
  problems : List Problem := []

namespace Lowered

variable {α β : Type}

protected def bind (x : Lowered α) (f : α → Lowered β) : Lowered β :=
  let y := f x.value
  { value := y.value, problems := x.problems ++ y.problems }

instance : Monad Lowered where
  pure a := { value := a }
  bind := Lowered.bind

def report (p : Problem) : Lowered Unit := { value := (), problems := [p] }

end Lowered

-- How a timer of the node `id` is written: a delayed send on entry, which its exit cancels.
def timerName (id : String) (delay : Delay) : String := Event.afterName delay.label id

def timerSend (id : String) (delay : Delay) : Action :=
  .send { event := some { name := timerName id delay }, delay := delay, id := timerName id delay }

def timerCancel (id : String) (delay : Delay) : Action := .cancel (timerName id delay)

def timers (s : StateSpec) : List Delay :=
  s.transitions.filterMap fun (occasion, _) =>
    match occasion with
    | .after delay => some delay
    | _ => none

def Occasion.descriptor (id : String) : Occasion → Descriptor
  | event d => .parse d
  | always => .always
  | after delay => .exact (timerName id delay)
  | done => .exact (Event.doneState id .null).name

-- The id of the `n`-th invocation of a node.
def InvokeSpec.actorId (node : String) (n : Nat) (s : InvokeSpec) : String :=
  s.id.getD s!"{node}:invocation[{n}]"

-- What a transition of an invocation listens for.
def InvokeSpec.outcomes (actor : String) (s : InvokeSpec) : List (Descriptor × TransitionSpec) :=
  (s.onDone.toList.map (.exact (Event.doneInvoke actor .null).name, ·)) ++
    (s.onError.toList.map (.exact (Event.errorPlatform actor .null).name, ·))

namespace Layout

variable (l : Layout) (n : NodeIndex)

def nodeId : String := (l.placed n).id

def lowerTarget (target : String) : Lowered (Option NodeIndex) := do
  match l.target? n target with
  | some m => pure (some m)
  | none =>
    .report (.unresolvedTarget (l.nodeId n) target)
    pure none

def lowerGuard : Option GuardSpec → Lowered (Option (Option Guard))
  | none => pure (some none)
  | some (.named name) => pure (some (some (.named name)))
  | some (.inState reference) => do
    match l.reference? reference with
    | some m => pure (some (some (.active m)))
    | none =>
      .report (.unresolvedStateReference (l.nodeId n) reference)
      pure none

def lowerTransition (on : Descriptor) (s : TransitionSpec) : Lowered (Option Transition) := do
  let targets ← s.targets.mapM (l.lowerTarget n)
  let guard ← l.lowerGuard n s.guard
  pure do
    pure {
      source := n
      position := 0
      on := on
      guard := ← guard
      actions := s.actions
      targets := ← targets.mapM id
      isInternal := s.resolvedInternal }

def lowerInitial : Lowered (Option NodeIndex) := do
  if l.kind n ≠ .compound then pure none
  else
    match (l.placed n).spec.initial with
    | none =>
      .report (.missingInitial (l.nodeId n))
      pure none
    | some key =>
      match (l.childWithKey? n key).filter fun c => !(l.kind c matches .history _) with
      | some c => pure (some c)
      | none =>
        .report (.invalidInitial (l.nodeId n) key)
        pure none

-- What the transitions of the node listen for: its own ones come first, then those of its
-- invocations.
def listeners : List (Descriptor × TransitionSpec) :=
  let s := (l.placed n).spec
  s.transitions.map (fun (occasion, u) => (occasion.descriptor (l.nodeId n), u)) ++
    (s.invocations.zipIdx.flatMap fun (i, k) => i.outcomes (i.actorId (l.nodeId n) k))

def lowerNode : Lowered Node := do
  let p := l.placed n
  let s := p.spec
  let initial ← l.lowerInitial n
  let transitions ← (l.listeners n).mapM fun (on, u) => l.lowerTransition n on u
  let defaults ← s.targets.mapM (l.lowerTarget n)
  pure {
    id := p.id
    key := p.key
    kind := l.kind n
    ancestors := p.ancestors
    children := p.children
    initial := initial
    transitions := (transitions.filterMap id).mapIdx fun k u => { u with position := k }
    entry := s.entry ++ (timers s).map (timerSend p.id)
    exit := s.exit ++ (timers s).map (timerCancel p.id)
    invocations := s.invocations.zipIdx.map fun (i, k) =>
      { id := i.actorId p.id k, service := i.service, autoForward := i.autoForward }
    defaults := defaults.filterMap id
    data := s.data
    tags := s.tags }

-- Every use of an id after the first one.
def duplicates : List Problem :=
  (List.range l.size).filterMap fun k =>
    if l.indexOf? (l.nodeId k) = some k then none else some (.duplicateId (l.nodeId k))

def lower (machineId : String) : Lowered Tree := do
  let nodes ← (List.range l.size).mapM l.lowerNode
  pure { machineId := machineId, nodes := nodes.toArray }

end Layout

end Statechart.Definition
