import Statechart.Interpreter.Run

-- The services that a machine can invoke or spawn, and the actors they become. Child machines have
-- contexts of the same type; how deep machines own machines is bounded by the type.

namespace Statechart

-- What a callback service reacts with. Each reaction is a list of posts.
structure CallbackHandle where
  onReceive : Option (Event → List Post) := none
  onCancel : Option (List Post) := none

-- What a callback posts at once, and whether it could be started.
structure CallbackStart where
  posts : List Post := []
  outcome : Except ActionError CallbackHandle

-- `M` is the type of child machines.
inductive Service (C M : Type)
  -- computes its result when it is started
  | promise (run : C → Event → Except Json Json)
  -- computes its result when it is started and posts it from an asynchronous task
  | future (run : C → Event → Except Json Json)
  -- posts some events and completes
  | observable (events : C → Event → List Event)
  | callback (start : C → CallbackStart)
  -- a machine with its own context or with one made for it
  | machine (machine : M) (context : Option (C → Event → C))

-- `pending` is the result that the task has yet to post.
inductive Actor (I : Type)
  | settled
  | callback (id : String) (handle : CallbackHandle) (running : Bool)
  | future (pending : Option Post)
  | machine (child : I)

-- Child machines of type `M` run as `I`.
class ChildModel (C : Type) (M : outParam Type) (I : Type) where
  -- the child's id comes before the context it has instead of its own
  launch : Env → M → String → Option C → Turn C I
  send : Env → Event → I → Turn C I
  stop : Env → I → Turn C I
  poll : Env → I → Turn C I
  finishTasks : I → Turn C I
  status : I → ActorStatus

def Post.ofResult : Except Json Json → Post
  | .ok data => .resolve data
  | .error data => .reject data

namespace Service

variable {C M I : Type} [ChildModel C M I] (env : Env)

-- Journals that the service computes something.
def noteRun (q : StartRequest C) : Turn C Unit := .note (.service q.service q.event q.context)

def startFuture (run : C → Event → Except Json Json) (q : StartRequest C) :
    Turn C (Except ActionError (Actor I)) := do
  if env.hasTasks then
    noteRun q
    pure (.ok (.future (some (.ofResult (run q.context q.event)))))
  else
    .warn .noTasks
    .post (.reject (.str "no tokio runtime available"))
    pure (.ok .settled)

def startCallback (start : C → CallbackStart) (q : StartRequest C) :
    Turn C (Except ActionError (Actor I)) := do
  .note (.callback q.service q.actor q.context)
  let s := start q.context
  .postAll s.posts
  pure (s.outcome.map (.callback q.actor · true))

def start (s : Service C M) (q : StartRequest C) : Turn C (Except ActionError (Actor I)) :=
  match s with
  | promise run => do
    noteRun q
    .post (.ofResult (run q.context q.event))
    pure (.ok .settled)
  | future run => startFuture env run q
  | observable events => do
    noteRun q
    .postAll ((events q.context q.event).map .send ++ [.resolve .null])
    pure (.ok .settled)
  | callback start => startCallback start q
  | machine m none => do
    pure (.ok (.machine (← ChildModel.launch env m q.actor none)))
  | machine m (some context) => do
    noteRun q
    pure (.ok (.machine (← ChildModel.launch env m q.actor (some (context q.context q.event)))))

end Service

namespace Actor

variable {C M I : Type} [ChildModel C M I] (env : Env)

-- Only running callbacks and machines take events.
def send (e : Event) (a : Actor I) : Turn C (Actor I) :=
  match a with
  | callback id { onReceive := some react, .. } true => do
    .note (.received e id)
    .postAll (react e)
    pure a
  | machine child => do
    pure (machine (← ChildModel.send env e child))
  | _ => pure a

-- The cancel hook of a callback runs once. A future that is stopped posts nothing any more.
def stop (a : Actor I) : Turn C (Actor I) :=
  match a with
  | callback id handle _ => do
    match handle.onCancel with
    | some posts => do
      .note (.cancelled id)
      .postAll posts
    | none => pure ()
    pure (callback id { handle with onCancel := none } false)
  | future _ => pure (future none)
  | machine child => do
    pure (machine (← ChildModel.stop env child))
  | settled => pure a

def poll (a : Actor I) : Turn C (Actor I) :=
  match a with
  | machine child => do
    pure (machine (← ChildModel.poll env child))
  | _ => pure a

def finishTasks (a : Actor I) : Turn C (Actor I) :=
  match a with
  | future pending => do
    .postAll pending.toList
    pure (future none)
  | machine child => do
    pure (machine (← ChildModel.finishTasks child))
  | _ => pure a

variable (C) in
def status (a : Actor I) : ActorStatus :=
  match a with
  | settled => .stopped
  | callback _ _ running => if running then .running else .stopped
  | future pending => if pending.isSome then .running else .stopped
  | machine child => ChildModel.status C child

instance : ActorModel C (Service C M) (Actor I) where
  start env s q := s.start env q
  settled := settled
  send env e a := a.send env e
  stop env a := a.stop env
  poll env a := a.poll env
  finishTasks a := a.finishTasks
  status a := a.status C

end Actor

end Statechart
