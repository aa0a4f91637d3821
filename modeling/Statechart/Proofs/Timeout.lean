import Statechart.Proofs.Descendants
import Statechart.Proofs.Keeping
import Statechart.Time.Clock

-- How long nothing is to be done. An interpreter that is polled also polls the machines that it
-- owns, so that all their delayed events count, and not only those of its own.

namespace Statechart

namespace Turn

variable {C α β : Type} {x : Turn C α} {f g : α → Turn C β}

theorem bind_congr_ok (h : ∀ a, x.outcome = .ok a → f a = g a) : x >>= f = x >>= g := by
  change Turn.bind x f = Turn.bind x g
  rw [Turn.bind, Turn.bind]
  cases hx : x.outcome with
  | error => rfl
  | ok a =>
    dsimp only
    rw [h a hx]

end Turn

namespace Scheduler

theorem popDue?_eq_none {s : Scheduler} {now : Duration} :
    s.popDue? now = none ↔ ∀ d, s.nextDeadline? = some d → now < d := by
  rw [popDue?, nextDeadline?]
  cases s.queue with
  | nil => simp
  | cons p rest =>
    have hlt : ¬ p.deadline ≤ now ↔ now < p.deadline := Nat.not_le
    by_cases hp : p.deadline ≤ now <;> simp [hp, ← hlt]

end Scheduler

namespace Shell

variable {C A : Type} {s : Shell C A} {p : ArenaEntry A → Bool} {f : A → Turn C A}

theorem eachActor_of_pure (h : ∀ x ∈ s.actors, f x.actor = pure x.actor) :
    s.eachActor p f = pure s := by
  have hgo (rest seen : Arena A) (hr : ∀ x ∈ rest, f x.actor = pure x.actor) :
      eachActor.go p f rest seen s = pure { s with actors := seen ++ rest } := by
    induction rest generalizing seen with
    | nil => simp [eachActor.go]
    | cons x rest ih =>
      obtain ⟨hx, hr⟩ := List.forall_mem_cons.mp hr
      have hreceive : s.runActor x.id (pure x.actor) = pure (x.actor, s) := by
        change pure (x.actor, s.receive x.id []) = _
        simp [receive]
      rw [eachActor.go, hx, hreceive, pure_bind, ite_self]
      dsimp only
      rw [ih _ hr, List.append_assoc]
      rfl
  exact hgo _ _ h

theorem eachActor_of_singleton {x : ArenaEntry A} {a : A} (hs : s.actors = [x]) (hp : p x = true)
    (ha : (f x.actor).outcome = .ok a) (hq : (f x.actor).posts = []) :
    (s.eachActor p f).outcome = .ok { s with actors := [{ x with actor := a }] } := by
  rw [eachActor, hs, eachActor.go, if_pos hp, runActor, Turn.outcome_bind, Turn.outcome_bind,
    Turn.outcome_collect, ha, hq]
  simp [Except.map, Except.bind, receive, eachActor.go]

theorem spawn_of_silent_start {S : Type} [ActorModel C S A] {env : Env} {logic : S}
    {request : StartRequest C} {a : A} (autoForward : Bool)
    (ha : (ActorModel.start env logic request).outcome = .ok (.ok a))
    (hq : (ActorModel.start (A := A) env logic request).posts = [])
    (hf : s.actors.find? request.actor = none) :
    (s.spawn env logic request autoForward).outcome = .ok { s with
      actors := s.actors ++ [⟨request.actor, autoForward, a⟩] } := by
  rw [spawn, Turn.outcome_bind, runActor, Turn.outcome_bind, Turn.outcome_collect, ha, hq]
  change (insertActor env _ _).outcome = _
  simp only [insertActor, removeActor, receive, hf, List.map_nil, List.append_nil]
  rfl

end Shell

theorem Actor.poll_of_still {C M I : Type} [ChildModel C M I] {a : Actor I} {env : Env}
    (h : ∀ i, a = machine i → ChildModel.poll (C := C) env i = pure i) :
    ActorModel.poll (C := C) env a = pure a := by
  change a.poll env = pure a
  cases a with
  | machine i =>
    rw [poll, h i rfl]
    rfl
  | settled | callback | future => rfl

namespace Interpreter

section Poll

variable {C S A : Type} [ActorModel C S A] {i : Interpreter C S A} {env : Env} {fuel : Nat}

omit [ActorModel C S A] in
theorem not_due_of_lt_nextTimeout {clock : Clock} {d : Duration}
    (h : ∀ w, i.nextTimeout? clock.now = some w → d < w) :
    i.shell.scheduler.popDue? (clock.advance d).now = none := by
  refine Scheduler.popDue?_eq_none.mpr fun deadline hdeadline => ?_
  have hd : d.nanos < deadline.nanos - clock.now.nanos :=
    h (deadline.monus clock.now) (by rw [nextTimeout?, hdeadline]; rfl)
  change min (clock.now.nanos + d.nanos) Clock.last < deadline.nanos
  omega

theorem deliverDueWithin_of_not_due (h : i.shell.scheduler.popDue? env.now = none) :
    i.deliverDueWithin env fuel = pure i := by
  unfold deliverDueWithin
  rw [h]
  exact ite_self _

-- Polling its actors leaves the events that an interpreter has delayed where they are.
theorem poll_of_not_due (h : i.shell.scheduler.popDue? env.now = none) :
    i.poll env = if i.isRunning then do
      drain env { i with shell := ← i.shell.eachActor (fun _ => true) (ActorModel.poll env) }
    else pure i := by
  rw [poll]
  refine congrArg (ite _ · _) (Turn.bind_congr_ok fun s hs => ?_)
  obtain ⟨_, hreceives⟩ := (Shell.eachActor_ok hs).left.receives
  rw [deliverDueWithin_of_not_due (by rw [hreceives.scheduler, h]), pure_bind]

theorem poll_of_still (hm : i.shell.mailbox = [])
    (hd : i.shell.scheduler.popDue? env.now = none)
    (ha : ∀ x ∈ i.shell.actors, ActorModel.poll (C := C) env x.actor = pure x.actor) :
    i.poll env = pure i := by
  rw [poll_of_not_due hd, Shell.eachActor_of_pure ha, pure_bind]
  exact (congrArg (ite _ · _) (drain_of_empty hm)).trans (ite_self _)

end Poll

section Family

variable {C : Type} {n : Nat} {i : NestedInterpreter C n} {env : Env}

-- By induction on how deep machines own machines.
theorem poll_of_none_due
    (hm : ∀ {k} (j : NestedInterpreter C k), Owns i j → j.shell.mailbox = [])
    (hd : ∀ {k} (j : NestedInterpreter C k), Owns i j →
      j.shell.scheduler.popDue? env.now = none) : i.poll env = pure i := by
  induction n with
  | zero => exact poll_of_still (hm i .self) (hd i .self) fun x _ => Actor.poll_of_still nofun
  | succ n ih =>
    refine poll_of_still (hm i .self) (hd i .self) fun x hx => Actor.poll_of_still fun c hc => ?_
    exact ih (fun j hj => hm j (.child hx hc hj)) fun j hj => hd j (.child hx hc hj)

-- An interpreter and those it owns wait for events. Before the first of its own delayed events is
-- due, polling it is polling its actors and processing what they post. Nothing at all happens
-- before the first of all their delayed events is due.
theorem poll_before_timeout (i : NestedInterpreter C n) (clock : Clock) (d : Duration) (env : Env)
    (henv : env.now = (clock.advance d).now)
    (hm : ∀ {k} (j : NestedInterpreter C k), Owns i j → j.shell.mailbox = [])
    (hd : ∀ w, i.nextTimeout? clock.now = some w → d < w) :
    (i.poll env = if i.isRunning then do
        drain env { i with shell := ← i.shell.eachActor (fun _ => true) (ActorModel.poll env) }
      else pure i) ∧
    ((∀ {k} (j : NestedInterpreter C k), Owns i j →
      ∀ w, j.nextTimeout? clock.now = some w → d < w) → i.poll env = pure i) := by
  refine ⟨poll_of_not_due ?_, fun hall => poll_of_none_due hm fun j hj => ?_⟩
  · rw [henv]
    exact not_due_of_lt_nextTimeout hd
  · rw [henv]
    exact not_due_of_lt_nextTimeout (hall j hj)

end Family

end Interpreter

namespace Macrostep

variable {C S σ : Type} {t : Tree} {r : Registry C S} {config : Config} {commit : Commit σ C}
  {s x : MachineState C} {shell shell' : σ} {trigger : Trigger} {m : Microstep C} {e : Event}
  {eventless : Bool}

theorem choose_posts : (choose t r config s e eventless).posts = [] := by
  have hfault (y : Except Fault (Microstep C)) : (ofFault y).posts = [] := by
    rcases y with (_ | _) | _ <;> rfl
  refine Turn.posts_bind_eq_nil rfl fun _ _ => ?_
  split
  · rfl
  · rfl
  · exact Turn.posts_bind_eq_nil (hfault _) fun _ _ => rfl

theorem loop_posts_of_resting {p : Progress σ C} (hs : Settled t r config p) (hr : p.raised = []) :
    (loop t r config commit p).posts = [] := by
  rw [loop_of_running hs.running hs.below_limit]
  refine Turn.posts_bind_eq_nil choose_posts fun c hc => ?_
  rw [choose_of_nil hs.none_enabled] at hc
  cases hc
  rw [hr]
  rfl

-- A macrostep of one microstep posts nothing if carrying out the microstep does not.
theorem run_posts_of_reacts (h : Reacts t r config s trigger m x)
    (hc : (commit shell m trigger.toEvent).outcome = .ok (shell', none))
    (hq : (commit shell m trigger.toEvent).posts = []) :
    (run t r config commit shell s trigger).posts = [] := by
  obtain ⟨hopens, rfl, hr, hd, hl, hn, _⟩ := h
  have hbegin (errors : List ExecutionError) : (begin t r config commit
      ({ shell := shell, state := s, current := trigger.toEvent : Progress σ C }.noteErrors errors)
      (.step m)).posts = [] := by
    refine Turn.posts_bind_eq_nil hq fun y hy => ?_
    cases hc.symm.trans hy
    exact loop_posts_of_resting ⟨hd, hl, hn⟩ hr
  cases hopens with
  | start hm =>
    have hfirst : ofFault (Microstep.initial t r .init s.context s.history) =
        (pure (.step m) : Turn C (Choice C)) := by
      rw [hm]
      rfl
    refine Turn.posts_bind_eq_nil (congrArg Turn.posts hfirst) fun c hc => ?_
    cases (congrArg Turn.outcome hfirst).symm.trans hc
    exact hbegin []
  | event hsel hg hus hm =>
    rw [run]
    refine Turn.posts_bind_eq_nil choose_posts fun c hc => ?_
    rw [choose_of_ne_nil hsel hus, hm] at hc
    cases hc
    exact hbegin _

end Macrostep

namespace Interpreter

variable {C S A : Type} [ActorModel C S A] {i : Interpreter C S A} {env : Env} {trigger : Trigger}
  {m : Microstep C} {x : MachineState C} {s : Shell C A}

-- As long as it goes on, an interpreter posts nothing after a macrostep.
theorem settle_posts {changed : Bool} (hd : i.state.done = false) :
    (i.settle env changed).posts = [] := by
  have hnotify : i.notify.posts = [] := Turn.posts_bind_eq_nil Shell.callAll_posts fun _ _ => rfl
  cases changed with
  | false => simp [settle, hd]; rfl
  | true =>
    refine Turn.posts_bind_eq_nil hnotify fun j hj => ?_
    obtain ⟨s, hs, _⟩ := i.notify_ok
    cases hs.symm.trans hj
    simp [hd]; rfl

theorem macrostep_posts_of_reacts
    (h : Macrostep.Reacts i.machine.tree i.machine.registry i.machine.config i.state trigger m x)
    (hc : (commit env i.machine.registry i.shell m trigger.toEvent).outcome = .ok (s, none))
    (hq : (commit env i.machine.registry i.shell m trigger.toEvent).posts = []) :
    (i.macrostep env trigger).posts = [] := by
  refine Turn.posts_bind_eq_nil (Macrostep.run_posts_of_reacts h hc hq) fun p hp => ?_
  cases (Macrostep.run_of_reacts h hc).symm.trans hp
  exact settle_posts h.running

theorem start_posts_of_reacts (hi : i.shell.status = .notStarted)
    (h : Macrostep.Reacts i.machine.tree i.machine.registry i.machine.config i.state .start m x)
    (hc : (commit env i.machine.registry { i.shell with status := .running } m .init).outcome =
      .ok (s, none))
    (hq : (commit env i.machine.registry { i.shell with status := .running } m .init).posts = [])
    (hl : s.Unheard) (hb : s.mailbox = []) : (i.start env).posts = [] := by
  rw [start, if_pos hi]
  refine Turn.posts_bind_eq_nil (macrostep_posts_of_reacts h hc hq) fun j hj => ?_
  obtain ⟨s', h', hn, _⟩ :=
    macrostep_of_reacts env (i := { i with shell.status := .running }) h hc
  cases h'.symm.trans hj
  rw [drain_of_empty ((hn.mailbox_of_unheard hl).trans hb)]
  rfl

theorem drainWithin_of_empty {n : Nat} (h : i.shell.mailbox = []) :
    i.drainWithin env n = pure i := by
  cases n <;> simp [drainWithin, h]

theorem drain_of_cons {v : Envelope} {rest : List Envelope} {n : Nat} (hf : env.fuel = n + 1)
    (hr : i.shell.status = .running) (hm : i.shell.mailbox = v :: rest) : i.drain env =
      process env { i with shell.mailbox := rest } v >>= drainWithin env n := by
  have hrunning : ¬ (!i.isRunning) = true := by simp [isRunning, hr]
  rw [drain, hf]
  unfold drainWithin
  rw [if_neg hrunning, hm]

theorem deliverDueWithin_of_due {p : Pending} {rest : List Pending} {n : Nat}
    (hr : i.shell.status = .running) (hq : i.shell.scheduler.queue = p :: rest)
    (hd : p.deadline ≤ env.now) : i.deliverDueWithin env (n + 1) =
      Shell.deliver env { i.shell with scheduler.queue := rest } p.target p.event >>= fun s =>
        drain env { i with shell := s } >>= deliverDueWithin env n := by
  have hrunning : ¬ (!i.isRunning) = true := by simp [isRunning, hr]
  unfold deliverDueWithin
  rw [if_neg hrunning, Scheduler.popDue?, hq]
  simp only [hd, ↓reduceIte]

-- A nap, and a bedroom in which somebody takes it.
def nap : Definition.State :=
  .mk { key := "m", initial := some "asleep" } [
    .mk {
      key := "asleep"
      transitions := [(.after (.fixed (.ofMillis 10)), { targets := ["awake"] })] } [],
    .mk { key := "awake" } []]

def napTree : Tree := ((Definition.Layout.ofState "m" nap).lower "m").value

def napMachine : NestedMachine Unit 0 where
  tree := napTree
  registry := {}
  context := ()

def napName : String := "after(10)#m.asleep"

def napTimer : Planned := .send ⟨napName, .null⟩ .self (some (.ofMillis 10)) (some napName) 1

def bedroom : Definition.State :=
  .mk { key := "m", initial := some "quiet", invocations := [{ service := "nap" }] } [
    .mk { key := "quiet" } []]

def bedroomTree : Tree := ((Definition.Layout.ofState "m" bedroom).lower "m").value

theorem bedroom_build : bedroom.build "m" = .ok bedroomTree :=
  Definition.State.build_of_problems (by decide +kernel)

def bedroomMachine : NestedMachine Unit 1 where
  tree := bedroomTree
  registry := { services := .ofList [("nap", .machine napMachine none)] }
  context := ()

theorem nap_falls_asleep : ∃ m, Macrostep.Reacts napTree napMachine.registry napMachine.config
    (.plain ∅) .start m (.plain (.ofList [0, 1])) ∧ m.actions = [napTimer] :=
  Macrostep.exists_reacts (by decide +kernel)

theorem nap_wakes_up : ∃ m, Macrostep.Reacts napTree napMachine.registry napMachine.config
    (.plain (.ofList [0, 1])) (.event ⟨napName, .null⟩) m (.plain (.ofList [0, 2])) ∧
      m.actions = [.cancel napName, .cancelOwned 1] :=
  Macrostep.exists_reacts (by decide +kernel)

theorem bedroom_reacts : ∃ m, Macrostep.Reacts bedroomTree bedroomMachine.registry
    bedroomMachine.config (.plain ∅) .start m (.plain (.ofList [0, 1])) ∧
      m.actions = [.spawn "nap" "m:invocation[0]" (some 0) false] :=
  Macrostep.exists_reacts (by decide +kernel)

def midnight : Env := { now := Clock.start.now }

def napPending : Pending where
  event := ⟨napName, .null⟩
  target := .self
  owner := 1
  id := some napName
  deadline := .ofMillis 10
  ticket := 1

-- Nothing is left to be done but to wait for the end of the nap.
structure Asleep (s : Shell Unit (Actor (Child Unit 0))) : Prop where
  status : s.status = .running
  actors : s.actors = []
  queue : s.scheduler.queue = [napPending]
  mailbox : s.mailbox = []
  unheard : s.Unheard

def sleeper (s : Shell Unit (Actor (Child Unit 0))) : NestedInterpreter Unit 0 :=
  ⟨napMachine, .plain (.ofList [0, 1]), s⟩

theorem nap_starts (id : String) : ∃ s, Asleep s ∧
    (start midnight (.spawned napMachine id : NestedInterpreter Unit 0)).outcome =
      .ok (sleeper s) ∧
    (start midnight (.spawned napMachine id : NestedInterpreter Unit 0)).posts = [] := by
  obtain ⟨m, hreacts, ha⟩ := nap_falls_asleep
  let i : NestedInterpreter Unit 0 := .spawned napMachine id
  let s₀ : Shell Unit (Actor (Child Unit 0)) := { i.shell with
    status := .running
    scheduler := { queue := [napPending], lastTicket := 1 } }
  have hcommit : commit midnight napMachine.registry { i.shell with status := .running } m .init =
      pure (s₀, none) := by
    rw [commit, ha]
    rfl
  obtain ⟨s, h, hn, _⟩ := start_of_reacts (i := i) midnight rfl hreacts
    (congrArg Turn.outcome hcommit) ⟨rfl, rfl⟩ rfl
  refine ⟨s, ⟨hn.status, hn.actors, by rw [hn.scheduler], hn.mailbox_of_unheard ⟨rfl, rfl⟩,
    hn.unheard ⟨rfl, rfl⟩⟩, h, ?_⟩
  exact start_posts_of_reacts (i := i) rfl hreacts (congrArg Turn.outcome hcommit)
    (congrArg Turn.posts hcommit) ⟨rfl, rfl⟩ rfl

def morning : Env := { now := (Clock.start.advance (.ofMillis 10)).now }

-- The nap is over, and the child wakes up.
theorem nap_ends {s : Shell Unit (Actor (Child Unit 0))} (hs : Asleep s) :
    ∃ s', ((sleeper s).poll morning).outcome = .ok ⟨napMachine, .plain (.ofList [0, 2]), s'⟩ ∧
      ((sleeper s).poll morning).posts = [] := by
  obtain ⟨m, hreacts, ha⟩ := nap_wakes_up
  let s₁ : Shell Unit (Actor (Child Unit 0)) := { s with scheduler.queue := [], mailbox := [] }
  let i₁ : NestedInterpreter Unit 0 := ⟨napMachine, .plain (.ofList [0, 1]), s₁⟩
  have hcommit : commit morning napMachine.registry s₁ m ⟨napName, .null⟩ = pure (s₁, none) := by
    rw [commit, ha]
    rfl
  obtain ⟨s', h, hn, _⟩ := macrostep_of_reacts (i := i₁) morning hreacts
    (congrArg Turn.outcome hcommit)
  have hposts : (i₁.macrostep morning (.event ⟨napName, .null⟩)).posts = [] :=
    macrostep_posts_of_reacts hreacts (congrArg Turn.outcome hcommit) (congrArg Turn.posts hcommit)
  let j : NestedInterpreter Unit 0 := ⟨napMachine, .plain (.ofList [0, 2]), s'⟩
  have hempty : j.shell.mailbox = [] :=
    hn.mailbox_of_unheard ⟨hs.unheard.listeners, hs.unheard.errorListeners⟩
  have hrest : (drainWithin morning 999999 j >>= fun j =>
      j.deliverDueWithin morning 999999 >>= fun j => j.drain morning) = pure j := by
    have hnone : j.shell.scheduler.popDue? morning.now = none := by
      rw [show j.shell.scheduler = _ from hn.scheduler]
      rfl
    rw [drainWithin_of_empty hempty, pure_bind, deliverDueWithin_of_not_due hnone, pure_bind,
      drain_of_empty hempty]
  have hpoll : (sleeper s).poll morning =
      i₁.macrostep morning (.event ⟨napName, .null⟩) >>= fun j =>
        j.drainWithin morning 999999 >>= fun j =>
          j.deliverDueWithin morning 999999 >>= fun j => j.drain morning := by
    have hqueued : ({ s with scheduler.queue := [] }.queue ⟨napName, .null⟩).mailbox =
        [⟨none, ⟨napName, .null⟩⟩] := by simp [Shell.queue, hs.mailbox]
    have hactors : ∀ a ∈ s.actors, a.autoForward = false := by simp [hs.actors]
    rw [poll, if_pos (by simp [isRunning, sleeper, hs.status]),
      Shell.eachActor_of_pure (by simp [sleeper, hs.actors]), pure_bind,
      show morning.fuel = 999999 + 1 from rfl,
      deliverDueWithin_of_due (i := sleeper s) (n := 999999) hs.status hs.queue (Nat.le_refl _)]
    change (pure _ >>= _) >>= _ = _
    rw [pure_bind, drain_of_cons (n := 999999) rfl hs.status hqueued,
      process_of_outside rfl hactors]
    simp only [bind_assoc]
    rfl
  refine ⟨s', ?_, ?_⟩
  · rw [hpoll, Turn.outcome_bind, h]
    exact congrArg Turn.outcome hrest
  · rw [hpoll, Turn.posts_bind h, hposts]
    exact congrArg Turn.posts hrest

-- The machine that owns it waits as well.
structure Resting (i : NestedInterpreter Unit 1) (s : Shell Unit (Actor (Child Unit 0))) :
    Prop where
  asleep : Asleep s
  machine : i.machine = bedroomMachine
  status : i.shell.status = .running
  actors : i.shell.actors = [⟨"m:invocation[0]", false, .machine (sleeper s)⟩]
  queue : i.shell.scheduler.queue = []
  mailbox : i.shell.mailbox = []

theorem nap_spawns : ∃ s, Asleep s ∧
    (ActorModel.start midnight (.machine napMachine none : NestedService Unit 1)
      ⟨"m:invocation[0]", "nap", (), .init⟩).outcome = .ok (.ok (Actor.machine (sleeper s))) ∧
    (ActorModel.start (A := Actor (Child Unit 1)) midnight
      (.machine napMachine none : NestedService Unit 1)
      ⟨"m:invocation[0]", "nap", (), .init⟩).posts = [] := by
  obtain ⟨s, hs, hstart, hposts⟩ := nap_starts "m:invocation[0]"
  exact ⟨s, hs, Actor.start_machine hstart, Turn.posts_bind_eq_nil hposts fun _ _ => rfl⟩

theorem bedroom_starts : ∃ i s, Resting i s ∧ Runs bedroomMachine Clock.start.now i := by
  obtain ⟨m, hreacts, ha⟩ := bedroom_reacts
  obtain ⟨s, hs, hactor, hsilent⟩ := nap_spawns
  let i : NestedInterpreter Unit 1 := .new bedroomMachine
  let s₀ : Shell Unit (Actor (Child Unit 1)) := { i.shell with
    status := .running
    actors := [⟨"m:invocation[0]", false, .machine (sleeper s)⟩] }
  have hcommit : (commit midnight bedroomMachine.registry { i.shell with status := .running } m
      .init).outcome = .ok (s₀, none) := by
    have hspawn := Shell.spawn_of_silent_start (s := { i.shell with status := .running }) false
      hactor hsilent rfl
    rw [commit, ha]
    change ((Shell.spawn midnight _ _ _ _ >>= fun s => pure (s, none)) >>= _).outcome = _
    rw [bind_assoc, Turn.outcome_bind, hspawn]
    rfl
  obtain ⟨s', h, hn, _⟩ := start_of_reacts (i := i) midnight rfl hreacts hcommit ⟨rfl, rfl⟩ rfl
  refine ⟨_, s, ⟨hs, rfl, hn.status, hn.actors, ?_, hn.mailbox_of_unheard ⟨rfl, rfl⟩⟩,
    .operate (e := midnight) .new (.start h)⟩
  exact (congrArg Scheduler.queue hn.scheduler).trans rfl

theorem Resting.owns {i : NestedInterpreter Unit 1} {s : Shell Unit (Actor (Child Unit 0))}
    (h : Resting i s) {k : Nat} {j : NestedInterpreter Unit k} (hj : Owns i j)
    {P : ∀ {k : Nat}, NestedInterpreter Unit k → Prop} (hi : P i) (hs : P (sleeper s)) : P j := by
  cases hj with
  | self => exact hi
  | child hx hc hj =>
    rw [h.actors, List.mem_singleton] at hx
    cases hx
    cases hc
    cases hj with
    | self => exact hs

theorem Resting.idle {i : NestedInterpreter Unit 1} {s : Shell Unit (Actor (Child Unit 0))}
    (h : Resting i s) {k : Nat} {j : NestedInterpreter Unit k} (hj : Owns i j) :
    j.shell.mailbox = [] :=
  h.owns hj (P := fun j => j.shell.mailbox = []) h.mailbox h.asleep.mailbox

theorem Resting.nextTimeout {i : NestedInterpreter Unit 1}
    {s : Shell Unit (Actor (Child Unit 0))} (h : Resting i s) (now : Duration) :
    i.nextTimeout? now = none := by
  rw [nextTimeout?, Scheduler.nextDeadline?, h.queue]
  rfl

-- Up to the end of the nap nothing happens.
theorem poll_before_timeout_bedroom : ∃ (i : NestedInterpreter Unit 1) (clock : Clock)
    (d : Duration) (env : Env), bedroom.build "m" = .ok i.machine.tree ∧
      Runs i.machine clock.now i ∧ i.isRunning = true ∧ env.now = (clock.advance d).now ∧
      clock.now < env.now ∧ i.poll env = pure i := by
  obtain ⟨i, s, h, hruns⟩ := bedroom_starts
  have hnone (w : Duration) (hw : i.nextTimeout? Clock.start.now = some w) :
      Duration.ofMillis 9 < w := by
    cases (h.nextTimeout _).symm.trans hw
  obtain ⟨_, hall⟩ := poll_before_timeout i .start (.ofMillis 9)
    { now := (Clock.start.advance (.ofMillis 9)).now } rfl (fun _ hj => h.idle hj) hnone
  refine ⟨i, .start, .ofMillis 9, _, by rw [h.machine]; exact bedroom_build, by
    rw [h.machine]; exact hruns, by simp [isRunning, h.status], rfl, by decide, hall fun j hj => ?_⟩
  refine h.owns hj (P := fun j => ∀ w, j.nextTimeout? Clock.start.now = some w →
    Duration.ofMillis 9 < w) hnone fun w hw => ?_
  rw [sleeper, nextTimeout?, Scheduler.nextDeadline?, h.asleep.queue] at hw
  cases hw
  decide

-- At the end of the nap the child wakes up, though no delayed event was announced.
theorem exists_unannounced : ∃ (i j : NestedInterpreter Unit 1) (c c' : NestedInterpreter Unit 0)
    (clock : Clock) (d : Duration) (env : Env), bedroom.build "m" = .ok i.machine.tree ∧
      Runs i.machine clock.now i ∧ i.isRunning = true ∧
      (∀ {k : Nat} (j : NestedInterpreter Unit k), Owns i j → j.shell.mailbox = []) ∧
      i.nextTimeout? clock.now = none ∧ env.now = (clock.advance d).now ∧
      (i.poll env).outcome = .ok j ∧ Owns i c ∧ Owns j c' ∧
      c.state.configuration = .ofList [0, 1] ∧ c'.state.configuration = .ofList [0, 2] ∧
      i.poll env ≠ pure i := by
  obtain ⟨i, s, h, hruns⟩ := bedroom_starts
  obtain ⟨s', hwakes, hposts⟩ := nap_ends h.asleep
  let c' : NestedInterpreter Unit 0 := ⟨napMachine, .plain (.ofList [0, 2]), s'⟩
  let j : NestedInterpreter Unit 1 :=
    { i with shell.actors := [⟨"m:invocation[0]", false, .machine c'⟩] }
  have hnone : i.shell.scheduler.popDue? morning.now = none := by
    rw [Scheduler.popDue?, h.queue]
  have hactor : (ActorModel.poll (C := Unit) morning
      (Actor.machine (sleeper s) : Actor (Child Unit 1))).outcome = .ok (.machine c') :=
    Turn.bind_eq_ok.mpr ⟨c', hwakes, rfl⟩
  have hsilent : (ActorModel.poll (C := Unit) morning
      (Actor.machine (sleeper s) : Actor (Child Unit 1))).posts = [] :=
    Turn.posts_bind_eq_nil hposts fun _ _ => rfl
  have hpoll : (i.poll morning).outcome = .ok j := by
    rw [poll_of_not_due hnone, if_pos (by simp [isRunning, h.status]), Turn.outcome_bind,
      Shell.eachActor_of_singleton h.actors rfl hactor hsilent]
    exact congrArg Turn.outcome (drain_of_empty (i := j) h.mailbox)
  have hi : Owns i (sleeper s) :=
    .child (by rw [h.actors]; exact List.mem_singleton_self _) rfl .self
  have hj : Owns j c' := .child (List.mem_singleton_self _) rfl .self
  refine ⟨i, j, sleeper s, c', .start, .ofMillis 10, morning, by
    rw [h.machine]; exact bedroom_build, by rw [h.machine]; exact hruns, by
    simp [isRunning, h.status], fun _ hj => h.idle hj, h.nextTimeout _, rfl, hpoll, hi, hj, rfl,
    rfl, fun hsame => ?_⟩
  rw [hsame] at hpoll
  have hij : i = j := Except.ok.inj hpoll
  have hactors := h.actors.symm.trans (congrArg (·.shell.actors) hij)
  have hchild : sleeper s = c' :=
    Actor.machine.inj (congrArg ArenaEntry.actor (List.cons.inj hactors).left)
  have hne : (.ofList [0, 1] : Configuration) ≠ .ofList [0, 2] := by decide
  exact hne (congrArg (·.state.configuration) hchild)

end Interpreter

end Statechart
