import Statechart.Definition.State
import Statechart.Json.Access

-- Definitions as JSON documents.

namespace Statechart

open Json

-- A name alone stands for an event without payload.
def Event.ofJson? : Json → Option Event
  | .str s => some { name := s }
  | j => do
    pure ⟨← (j.field "name").string?, j.field "data"⟩

-- Milliseconds, or seconds with the nanoseconds beyond them.
def Duration.ofJson? : Json → Option Duration
  | .int (.ofNat n) => some (.ofMillis n)
  | j => do
    pure (.ofSeconds (← (j.field "secs").nat?) (← (j.field "nanos").nat?))

def Send.readOptions? (j : Json) (s : Send) : Option Send := do
  let actor ← j.optional? string? "to"
  let parent ← j.flag? "parent"
  let fixed ← j.optional? Duration.ofJson? "delay"
  let named ← j.optional? string? "delay_named"
  let id ← j.optional? string? "id"
  pure {
    event := s.event
    target := if parent then .parent else actor.elim s.target .actor
    delay := (named.map .named).or (fixed.map .fixed)
    id := id }

-- The first of these fields decides what the action is.
def Action.ofJson? : Json → Option Action
  | .str name => some (.named name)
  | j =>
    if j.hasField "raise" then do
      pure (.raise (← Event.ofJson? (j.field "raise")))
    else if j.hasField "cancel" then do
      pure (.cancel (← (j.field "cancel").string?))
    else if j.hasField "log" then do
      pure (.log (← (j.field "log").string?))
    else if j.hasField "spawn" then do
      pure (.spawn (← (j.field "spawn").string?) (← (j.field "id").string?))
    else if j.hasField "stop" then do
      pure (.stop (← (j.field "stop").string?))
    else if j.hasField "forward" then do
      pure (.send (← Send.readOptions? j (.forward (← (j.field "forward").string?))))
    else do
      pure (.send (← Send.readOptions? j { event := some (← Event.ofJson? (j.field "send")) }))

namespace Definition

def targets? : Json → Option (List String)
  | .str target => some [target]
  | j => j.list? string?

-- A reference to an active node takes the place of a named guard.
def TransitionSpec.ofJson? : Json → Option TransitionSpec
  | .str target => some { targets := [target] }
  | j => do
    let guard ← j.optional? string? "guard"
    let reference ← j.optional? string? "in"
    pure {
      targets := ← targets? (j.field "to")
      guard := (reference.map .inState).or (guard.map .named)
      actions := ← (j.field "actions").list? Action.ofJson?
      isInternal := ← j.optional? bool? "internal" }

def Occasion.ofJson? (j : Json) : Option Occasion := do
  if j.hasField "on" then
    pure (.event (← (j.field "on").string?))
  else if ← j.flag? "always" then
    pure .always
  else if ← j.flag? "done" then
    pure .done
  else if j.hasField "after_named" then
    pure (.after (.named (← (j.field "after_named").string?)))
  else
    pure (.after (.fixed (← Duration.ofJson? (j.field "after"))))

def InvokeSpec.ofJson? (j : Json) : Option InvokeSpec := do
  pure {
    service := ← (j.field "service").string?
    id := ← j.optional? string? "id"
    onDone := ← j.optional? TransitionSpec.ofJson? "on_done"
    onError := ← j.optional? TransitionSpec.ofJson? "on_error"
    autoForward := ← j.flag? "auto_forward" }

def Shape.ofJson? : Json → Option Shape
  | .null => some .auto
  | .str "parallel" => some .parallel
  | .str "final" => some .final
  | .str "history" => some (.history .shallow)
  | .str "deep_history" => some (.history .deep)
  | _ => none

def occasion? (j : Json) : Option (Occasion × TransitionSpec) := do
  pure (← Occasion.ofJson? j, ← TransitionSpec.ofJson? j)

-- Data that is null is still data.
def StateSpec.ofJson? (j : Json) : Option StateSpec := do
  pure {
    key := (← j.optional? string? "key").getD ""
    shape := ← Shape.ofJson? (j.field "type")
    id := ← j.optional? string? "id"
    initial := ← j.optional? string? "initial"
    transitions := ← (j.field "t").list? occasion?
    entry := ← (j.field "entry").list? Action.ofJson?
    exit := ← (j.field "exit").list? Action.ofJson?
    invocations := ← (j.field "invoke").list? InvokeSpec.ofJson?
    targets := ← (j.field "target").list? string?
    data := if j.hasField "data" then some (j.field "data") else none
    tags := ← (j.field "tags").list? string? }

def State.ofJson? (j : Json) : Option State :=
  match _h : (j.field "states").items? with
  | none => none
  | some items => do
    let spec ← StateSpec.ofJson? j
    let children ← items.attach.mapM fun c => State.ofJson? c.1
    pure (.mk spec children)
termination_by sizeOf j
decreasing_by
  have := sizeOf_lt_of_mem_items? _h c.2
  have := sizeOf_field_le j "states"
  omega

end Definition

end Statechart
