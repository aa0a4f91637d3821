import Statechart.Interpreter.Basic

-- Carrying out what a microstep plans.

namespace Statechart.Shell

variable {C S A : Type} [ActorModel C S A] (env : Env)

-- Runs part of the actor `id` and queues what it posts.
def runActor (s : Shell C A) (id : String) (x : Turn C α) : Turn C (α × Shell C A) := do
  let (a, posts) ← x.collect
  pure (a, s.receive id posts)

-- Applies `f` to the actors that `p` holds for, one after the other.
def eachActor (p : ArenaEntry A → Bool) (f : A → Turn C A) (s : Shell C A) : Turn C (Shell C A) :=
  go s.actors [] s
where
  go : Arena A → Arena A → Shell C A → Turn C (Shell C A)
    | [], seen, s => pure { s with actors := seen }
    | e :: rest, seen, s =>
      if p e then do
        let (a, s) ← s.runActor e.id (f e.actor)
        go rest (seen ++ [{ e with actor := a }]) s
      else go rest (seen ++ [e]) s

def removeActor (s : Shell C A) (id : String) : Turn C (Shell C A) :=
  match s.actors.find? id with
  | none => pure s
  | some a => do
    let s := { s with actors := s.actors.erase id }
    let (_, s) ← s.runActor id (ActorModel.stop env a)
    pure s

-- An actor that already has the id is stopped first.
def insertActor (s : Shell C A) (e : ArenaEntry A) : Turn C (Shell C A) := do
  let s ← removeActor env s e.id
  pure { s with actors := s.actors ++ [e] }

def deliver (s : Shell C A) (target : Target) (e : Event) : Turn C (Shell C A) :=
  match target with
  | .self => pure (s.queue e)
  | .parent => do
    if s.hasParent then .post (.send e) else .warn .noParent
    pure s
  | .actor id =>
    match s.actors.find? id with
    | none => do
      .warn .unknownActor
      pure s
    | some a => do
      let (a, s) ← s.runActor id (ActorModel.send env e a)
      pure { s with actors := s.actors.update id a }

-- Passes an external event on.
def forward (s : Shell C A) (e : Event) : Turn C (Shell C A) :=
  s.eachActor (·.autoForward) (ActorModel.send env e)

def command (s : Shell C A) : Command → Turn C (Shell C A)
  | .send e => pure (s.queue e)
  | .sendParent e => do
    if s.hasParent then .post (.send e)
    .note (.sentParent s.hasParent)
    pure s
  | .resolve _ => do
    .note (.resolved false)
    pure s

def spawn (s : Shell C A) (logic : S) (request : StartRequest C) (autoForward : Bool) :
    Turn C (Shell C A) := do
  let id := request.actor
  let (started, s) ← s.runActor id (ActorModel.start env logic request)
  match started with
  | .ok a => insertActor env s { id := id, autoForward := autoForward, actor := a }
  | .error e => do
    .warn .serviceNotStarted
    -- the actor stays known, so that its failure is not dropped
    let s ← insertActor env s { id := id, actor := ActorModel.settled C }
    pure (s.receive id [.reject (.str e.message)])

-- `x` and `e` are the context and the event of the microstep.
def perform (r : Registry C S) (x : C) (e : Event) (s : Shell C A) :
    Planned → Turn C (Shell C A × Option ExecutionError)
  | .effect name =>
    match r.actions.find? name with
    | some (.effect run) => do
      .note (.effect name e x)
      let plan := run x e
      let s ← plan.commands.foldlM command s
      pure (s, plan.failure.map (.action name e.name))
    | _ => pure (s, some (.unknownAction name))
  | .send sent target none _ _ => do
    pure (← deliver env s target sent, none)
  | .send sent target (some delay) id owner =>
    match env.now.add? delay with
    | none => pure (s, some (.delayOverflow sent.name))
    | some deadline =>
      let scheduled : Scheduled :=
        { event := sent, target := target, owner := owner, id := id, deadline := deadline }
      pure ({ s with scheduler := s.scheduler.schedule scheduled }, none)
  | .cancel id => pure ({ s with scheduler := s.scheduler.cancelId id }, none)
  | .cancelOwned owner => pure ({ s with scheduler := s.scheduler.cancelOwner owner }, none)
  | .log label => do
    .note (.logged label s.id e.name)
    pure (s, none)
  | .spawn service id _ autoForward =>
    match r.services.find? service with
    | none => pure (s, some (.unknownService service))
    | some logic => do
      let request : StartRequest C := { actor := id, service := service, context := x, event := e }
      pure (← spawn env s logic request autoForward, none)
  | .stop id => do
    pure (← removeActor env s id, none)

-- Stops at the first failure.
def performAll (r : Registry C S) (x : C) (e : Event) :
    List Planned → Shell C A → Turn C (Shell C A × Option ExecutionError)
  | [], s => pure (s, none)
  | a :: rest, s => do
    let (s, failure) ← perform env r x e s a
    match failure with
    | some err => pure (s, some err)
    | none => performAll r x e rest s

-- Makes an error known to the error listeners.
def report (s : Shell C A) (e : ExecutionError) : Turn C (Shell C A) := do
  .warn .executionError
  { s with lastError := some e }.callAll s.errorListeners (fun _ => .reported e) (· e)

def reportAll (s : Shell C A) (es : List ExecutionError) : Turn C (Shell C A) :=
  es.foldlM report s

-- Carries out as much as possible and reports every failure.
def performEach (r : Registry C S) (x : C) (e : Event) (s : Shell C A) (actions : List Planned) :
    Turn C (Shell C A) :=
  actions.foldlM (fun s a => do
    let (s, failure) ← perform env r x e s a
    s.reportAll failure.toList) s

-- Stops every actor, which stay in the arena, and drops every delayed event.
def halt (s : Shell C A) : Turn C (Shell C A) := do
  let s ← { s with status := .stopped }.eachActor (fun _ => true) (ActorModel.stop env)
  pure { s with scheduler := s.scheduler.cancelAll }

end Statechart.Shell
