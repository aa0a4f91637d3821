import Statechart.Definition.Reading
import Statechart.Script.Blueprint

-- Scripts and blueprints as JSON documents. Most scripts are objects with a single field.

namespace Statechart

open Json

def Post.ofJson? : Json → Option Post
  | .obj [("send", e)] => (Event.ofJson? e).map .send
  | .obj [("resolve", data)] => some (.resolve data)
  | .obj [("reject", data)] => some (.reject data)
  | .obj [("complete", _)] => some (.resolve .null)
  | _ => none

namespace Script

def number? (j : Json) : Option Int64 := j.int?.map .ofInt

def Context.ofJson? (j : Json) : Option Context := do
  let vars ← match j.field "vars" with
    | .obj fields => fields.mapM fun (v, n) => do
      pure (v, ← number? n)
    | _ => pure []
  pure ⟨.ofList vars, ← (j.field "trace").list? string?⟩

mutual

def Condition.ofJson? : Json → Option Condition
  | .bool b => some (.const b)
  | .obj [("lt", .arr [v, n])] => do
    pure (.less (← v.string?) (← number? n))
  | .obj [("ge", .arr [v, n])] => do
    pure (.atLeast (← v.string?) (← number? n))
  | .obj [("eq", .arr [v, n])] => do
    pure (.equals (← v.string?) (← number? n))
  | .obj [("event", name)] => name.string?.map .event
  | .obj [("data", .arr [key, value])] => do
    pure (.data (← key.string?) value)
  | .obj [("not", c)] => (Condition.ofJson? c).map .not
  | .obj [("and", .arr cs)] => (conditions? cs).map .all
  | .obj [("or", .arr cs)] => (conditions? cs).map .any
  | .obj [("fail", message)] => message.string?.map .fail
  | _ => none

def conditions? : List Json → Option (List Condition)
  | [] => some []
  | c :: rest => do
    let c ← Condition.ofJson? c
    let rest ← conditions? rest
    pure (c :: rest)

end

def Update.ofJson? : Json → Option Update
  | .obj [("add", .arr [v, n])] => do
    pure (.add (← v.string?) (← number? n))
  | .obj [("mul", .arr [v, n])] => do
    pure (.mul (← v.string?) (← number? n))
  | .obj [("set", .arr [v, n])] => do
    pure (.set (← v.string?) (← number? n))
  | .obj [("data", .arr [v, key])] => do
    pure (.ofData (← v.string?) (← key.string?))
  | .obj [("push", text)] => text.string?.map .push
  | .obj [("push_event", _)] => some .pushEvent
  | _ => none

-- An effect's own sender queues events as the effect itself does.
def Operation.ofJson? : Json → Option Operation
  | .obj [("send", e)] => (Event.ofJson? e).map fun e => .command (.send e)
  | .obj [("sender", e)] => (Event.ofJson? e).map fun e => .command (.send e)
  | .obj [("parent", e)] => (Event.ofJson? e).map fun e => .command (.sendParent e)
  | .obj [("resolve", data)] => some (.command (.resolve data))
  | .obj [("fail", message)] => message.string?.map .fail
  | .obj [("fail_if", .arr [c, message])] => do
    pure (.failIf (← Condition.ofJson? c) (← message.string?))
  | _ => none

def ActionScript.ofJson? : Json → Option ActionScript
  | .obj [("assign", us)] => (us.list? Update.ofJson?).map .assign
  | .obj [("effect", os)] => (os.list? Operation.ofJson?).map .effect
  | _ => none

def DelayScript.ofJson? : Json → Option DelayScript
  | .obj [("var", v)] => v.string?.map .millis
  | j => (Duration.ofJson? j).map .fixed

def Template.ofJson? : Json → Option Template
  | .obj [("$var", v)] => v.string?.map .var
  | .obj [("$data", _)] => some .data
  | j => some (.literal j)

def Outcome.ofJson? (j : Json) : Option Outcome := do
  let value (key : String) : Option (Option Template) :=
    if j.hasField key then (Template.ofJson? (j.field key)).map some else some none
  pure ⟨← j.optional? Condition.ofJson? "if", ← value "ok", ← value "err"⟩

def Reaction.ofJson? (j : Json) : Option Reaction := do
  let (name, posts) ← j.pair? string? (list? Post.ofJson?)
  pure ⟨if name = "*" then none else some name, posts⟩

def CallbackScript.ofJson? (j : Json) : Option CallbackScript := do
  pure {
    posts := ← (j.field "start").list? Post.ofJson?
    failure := (← j.optional? string? "fail").map fun message => ⟨message⟩
    reactions := ← j.optional? (list? Reaction.ofJson?) "receive"
    cancel := ← j.optional? (list? Post.ofJson?) "cancel" }

def Source.ofJson? : Json → Option Source
  | .obj [("var", v)] => v.string?.map .var
  | .obj [("data", key)] => key.string?.map .data
  | _ => none

def ServiceScript.ofJson? (child : Json → Option M) (j : Json) : Option (ServiceScript M) :=
  match j.field "type" with
  | .str "promise" => (Outcome.ofJson? j).map .promise
  | .str "future" => (Outcome.ofJson? j).map .future
  | .str "observable" => do
    pure (.observable (← (j.field "events").list? Event.ofJson?) (← j.optional? string? "repeat"))
  | .str "callback" => (CallbackScript.ofJson? j).map .callback
  | .str "machine" => do
    let sources ← j.optional? (list? (pair? string? Source.ofJson?)) "map"
    pure (.machine (← child (j.field "machine")) sources)
  | _ => none

-- The configuration has a reader of its own.
def Blueprint.ofJson? (config : Json → Option Config) (child : Json → Option M) (j : Json) :
    Option (Blueprint M) := do
  let r := j.field "registry"
  let context ← Context.ofJson? (j.field "context")
  pure {
    id := (← j.optional? string? "id").getD ""
    root := ← j.optional? Definition.State.ofJson? "root"
    guards := ← (r.field "guards").list? (pair? string? Condition.ofJson?)
    actions := ← (r.field "actions").list? (pair? string? ActionScript.ofJson?)
    delays := ← (r.field "delays").list? (pair? string? DelayScript.ofJson?)
    services := ← (r.field "services").list? (pair? string? (ServiceScript.ofJson? child))
    context := if ← j.flag? "no_context" then none else some context
    config := (← j.optional? config "config").getD {} }

end Script

end Statechart
