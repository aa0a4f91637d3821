import Statechart.Interpreter.Nested
import Statechart.Proofs.Lifecycle

-- Interpreters that own interpreters, to any depth: what the actors that services become can be
-- relied on for, and what this means for the whole family.

namespace Statechart

-- Something is done with a child machine.
inductive ChildActs (C : Type) {M I : Type} [ChildModel C M I] (i j : I) : Prop
  | send {env e} : (ChildModel.send (C := C) env e i).outcome = .ok j → ChildActs C i j
  | stop {env} : (ChildModel.stop (C := C) env i).outcome = .ok j → ChildActs C i j
  | poll {env} : (ChildModel.poll (C := C) env i).outcome = .ok j → ChildActs C i j
  | finishTasks : (ChildModel.finishTasks (C := C) i).outcome = .ok j → ChildActs C i j

structure ChildModel.Obedient (C : Type) {M I : Type} [ChildModel C M I] (Sound AtRest : I → Prop) :
    Prop where
  launch {env : Env} {m : M} {id : String} {x : Option C} {i : I} :
    (ChildModel.launch env m id x).outcome = .ok i → Sound i
  acts {i j : I} : Sound i → ChildActs C i j → Sound j
  stop {env : Env} {i j : I} : Sound i → (ChildModel.stop (C := C) env i).outcome = .ok j → AtRest j
  rests {i j : I} : Sound i → AtRest i → ChildActs C i j → AtRest j

namespace Interpreter

variable {C S A : Type} [ActorModel C S A] {i j : Interpreter C S A} {Sound AtRest : A → Prop}

theorem exists_operates (h : ChildActs C i j) : ∃ env, Operates env i j := by
  cases h with
  | send h => exact ⟨_, .send h⟩
  | stop h => exact ⟨_, .stop h⟩
  | poll h => exact ⟨_, .poll h⟩
  | finishTasks h => exact ⟨default, .finishTasks h⟩

theorem status_of_ended (h : i.Ended AtRest) : ChildModel.status C i = .stopped := by
  simp only [ChildModel.status, h.status]

-- An interpreter is a child that can be relied on if its own actors can.
theorem obedient (ho : ActorModel.Obedient C Sound AtRest) :
    ChildModel.Obedient C (Lives (C := C) (S := S) (A := A)) (Ended AtRest) where
  launch h := Lives.spawned.operate (.start h)
  acts hi h :=
    have ⟨_, h⟩ := exists_operates h
    hi.operate h
  stop hi h := (hi.operate (.stop h)).ended ho (stopped_of_stop h)
  rests hi hr h :=
    have ⟨_, h⟩ := exists_operates h
    (hi.operate h).ended ho (h.final hr.status).left

end Interpreter

namespace Actor

variable {C M I : Type} [ChildModel C M I] {a b : Actor I} {P Q : I → Prop}

-- What is done with an actor does not make another kind of actor of it.
inductive Becomes (C : Type) {M I : Type} [ChildModel C M I] : Actor I → Actor I → Prop
  | settled : Becomes C settled settled
  | callback {id handle handle' running running'} : (running = false → running' = false) →
      Becomes C (callback id handle running) (callback id handle' running')
  | future {pending pending'} : (pending = none → pending' = none) →
      Becomes C (future pending) (future pending')
  | machine {i j} : ChildActs C i j → Becomes C (machine i) (machine j)

inductive Stops (C : Type) {M I : Type} [ChildModel C M I] (env : Env) : Actor I → Actor I → Prop
  | settled : Stops C env settled settled
  | callback {id handle handle' running} :
      Stops C env (callback id handle running) (callback id handle' false)
  | future {pending} : Stops C env (future pending) (future none)
  | machine {i j} : (ChildModel.stop (C := C) env i).outcome = .ok j →
      Stops C env (machine i) (machine j)

theorem Stops.becomes {env : Env} (h : Stops C env a b) : Becomes C a b := by
  cases h with
  | settled => exact .settled
  | callback => exact .callback fun _ => rfl
  | future => exact .future fun _ => rfl
  | machine h => exact .machine (.stop h)

theorem becomes_self (h : ∀ i, a ≠ machine i) : Becomes C a a := by
  cases a with
  | settled => exact .settled
  | callback => exact .callback id
  | future => exact .future id
  | machine i => exact absurd rfl (h i)

theorem becomes_of_send {env : Env} {e : Event}
    (h : (ActorModel.send (C := C) env e a).outcome = .ok b) : Becomes C a b := by
  change (Actor.send env e a).outcome = .ok b at h
  unfold Actor.send at h
  split at h
  case h_1 =>
    obtain ⟨_, _, h⟩ := Turn.bind_eq_ok.mp h
    obtain ⟨_, _, h⟩ := Turn.bind_eq_ok.mp h
    cases h
    exact .callback id
  case h_2 =>
    obtain ⟨j, hj, h⟩ := Turn.bind_eq_ok.mp h
    cases h
    exact .machine (.send hj)
  case h_3 hm =>
    cases h
    exact becomes_self hm

theorem stops_of_stop {env : Env} (h : (ActorModel.stop (C := C) env a).outcome = .ok b) :
    Stops C env a b := by
  change (Actor.stop env a).outcome = .ok b at h
  unfold Actor.stop at h
  split at h
  case h_1 =>
    split at h
    case h_1 =>
      obtain ⟨_, _, h⟩ := Turn.bind_eq_ok.mp h
      obtain ⟨_, _, h⟩ := Turn.bind_eq_ok.mp h
      cases h
      exact .callback
    case h_2 =>
      cases h
      exact .callback
  case h_2 =>
    cases h
    exact .future
  case h_3 =>
    obtain ⟨j, hj, h⟩ := Turn.bind_eq_ok.mp h
    cases h
    exact .machine hj
  case h_4 =>
    cases h
    exact .settled

theorem start_machine {env : Env} {m : M} {request : StartRequest C} {i : I}
    (h : (ChildModel.launch (C := C) env m request.actor none).outcome = .ok i) :
    (ActorModel.start (A := Actor I) env (.machine m none) request).outcome =
      .ok (.ok (machine i)) :=
  Turn.bind_eq_ok.mpr ⟨i, h, rfl⟩

theorem stop_machine {env : Env} {i j : I} (h : (ChildModel.stop (C := C) env i).outcome = .ok j) :
    (ActorModel.stop (C := C) env (machine i)).outcome = .ok (machine j) :=
  Turn.bind_eq_ok.mpr ⟨j, h, rfl⟩

theorem becomes_of_poll {env : Env} (h : (ActorModel.poll (C := C) env a).outcome = .ok b) :
    Becomes C a b := by
  change (Actor.poll env a).outcome = .ok b at h
  unfold Actor.poll at h
  split at h
  case h_1 =>
    obtain ⟨j, hj, h⟩ := Turn.bind_eq_ok.mp h
    cases h
    exact .machine (.poll hj)
  case h_2 hm =>
    cases h
    exact becomes_self hm

theorem becomes_of_finishTasks (h : (ActorModel.finishTasks (C := C) a).outcome = .ok b) :
    Becomes C a b := by
  change (Actor.finishTasks a).outcome = .ok b at h
  unfold Actor.finishTasks at h
  split at h
  case h_1 =>
    obtain ⟨_, _, h⟩ := Turn.bind_eq_ok.mp h
    cases h
    exact .future fun _ => rfl
  case h_2 =>
    obtain ⟨j, hj, h⟩ := Turn.bind_eq_ok.mp h
    cases h
    exact .machine (.finishTasks hj)
  case h_3 _ hm =>
    cases h
    exact becomes_self hm

theorem becomes_of_acts (h : Acts C a b) : Becomes C a b := by
  cases h with
  | send h => exact becomes_of_send h
  | stop h => exact (stops_of_stop h).becomes
  | poll h => exact becomes_of_poll h
  | finishTasks h => exact becomes_of_finishTasks h

-- Only a child machine can be unsound.
def Sound (P : I → Prop) (a : Actor I) : Prop := ∀ i, a = machine i → P i

-- The actor does nothing any more, and neither does anything that it owns.
def AtRest (Q : I → Prop) : Actor I → Prop
  | settled => True
  | callback _ _ running => running = false
  | future pending => pending = none
  | machine i => Q i

theorem sound_of_start {env : Env} {logic : Service C M} {request : StartRequest C}
    (ho : ChildModel.Obedient C P Q)
    (h : (ActorModel.start env logic request).outcome = .ok (.ok a)) : a.Sound P := by
  rintro i rfl
  change (logic.start env request).outcome = .ok (.ok (machine i)) at h
  unfold Service.start at h
  split at h
  case h_1 | h_3 =>
    obtain ⟨_, _, h⟩ := Turn.bind_eq_ok.mp h
    obtain ⟨_, _, h⟩ := Turn.bind_eq_ok.mp h
    cases h
  case h_2 =>
    unfold Service.startFuture at h
    split at h
    · obtain ⟨_, _, h⟩ := Turn.bind_eq_ok.mp h
      cases h
    · obtain ⟨_, _, h⟩ := Turn.bind_eq_ok.mp h
      obtain ⟨_, _, h⟩ := Turn.bind_eq_ok.mp h
      cases h
  case h_4 callback =>
    obtain ⟨_, _, h⟩ := Turn.bind_eq_ok.mp h
    obtain ⟨_, _, h⟩ := Turn.bind_eq_ok.mp h
    have h := Except.ok.inj h
    cases hs : (callback request.context).outcome with
    | error => simp [hs, Except.map] at h
    | ok => simp [hs, Except.map] at h
  case h_5 =>
    obtain ⟨_, hi, h⟩ := Turn.bind_eq_ok.mp h
    cases h
    exact ho.launch hi
  case h_6 =>
    obtain ⟨_, _, h⟩ := Turn.bind_eq_ok.mp h
    obtain ⟨_, hi, h⟩ := Turn.bind_eq_ok.mp h
    cases h
    exact ho.launch hi

theorem obedient (ho : ChildModel.Obedient C P Q) :
    ActorModel.Obedient C (Actor.Sound P) (AtRest Q) where
  start h := sound_of_start ho h
  settled := nofun
  acts ha h := by
    cases becomes_of_acts h with
    | settled | callback _ | future _ => exact nofun
    | machine hi =>
      rintro _ ⟨⟩
      exact ho.acts (ha _ rfl) hi
  stop ha h := by
    cases stops_of_stop h with
    | settled => trivial
    | callback | future => rfl
    | machine hi => exact ho.stop (ha _ rfl) hi
  rests ha hr h := by
    cases becomes_of_acts h with
    | settled => trivial
    | callback hb => exact hb hr
    | future hb => exact hb hr
    | machine hi => exact ho.rests (ha _ rfl) hr hi

theorem AtRest.status (ho : ∀ i, Q i → ChildModel.status C i = .stopped) (h : a.AtRest Q) :
    ActorModel.status (C := C) a = .stopped := by
  cases a with
  | settled => rfl
  | callback id handle running =>
    obtain rfl : running = false := h
    rfl
  | future pending =>
    obtain rfl : pending = none := h
    rfl
  | machine i => exact ho i h

end Actor

namespace Child

variable {C : Type}

-- The child was made by its owner, and since then only its owner has dealt with it.
def Sound : (n : Nat) → Child C n → Prop
  | 0, _ => False
  | n + 1, i => Interpreter.Lives (i : NestedInterpreter C n)

-- The child is over, and so is everything that it owns.
def AtRest : (n : Nat) → Child C n → Prop
  | 0, _ => False
  | n + 1, i => Interpreter.Ended (Actor.AtRest (AtRest n)) (i : NestedInterpreter C n)

theorem obedient (n : Nat) : ChildModel.Obedient C (Sound (C := C) n) (AtRest n) := by
  induction n with
  | zero =>
    exact ⟨@fun _ m => m.elim, @fun i => i.elim, @fun _ i => i.elim, @fun i => i.elim⟩
  | succ n ih => exact Interpreter.obedient (Actor.obedient ih)

theorem status_of_atRest {n : Nat} {i : Child C n} (h : AtRest n i) :
    ChildModel.status C i = .stopped := by
  cases n with
  | zero => exact h.elim
  | succ n =>
    exact Interpreter.status_of_ended h

end Child

-- The interpreters that `i` owns, itself, its child machines, their child machines and so on.
inductive Owns {C : Type} : {n k : Nat} → NestedInterpreter C n → NestedInterpreter C k → Prop
  | self {n} {i : NestedInterpreter C n} : Owns i i
  | child {n k} {i : NestedInterpreter C (n + 1)} {x : ArenaEntry (Actor (Child C (n + 1)))}
      {c : NestedInterpreter C n} {j : NestedInterpreter C k} : x ∈ i.shell.actors →
      x.actor = .machine c → Owns c j → Owns i j

namespace Owns

variable {C : Type} {n k : Nat} {i : NestedInterpreter C n} {j : NestedInterpreter C k}

theorem lives (h : Owns i j) (hi : i.Lives) : j.Lives := by
  induction h with
  | self => exact hi
  | child hx ha _ ih => exact ih (hi.sound (Actor.obedient (Child.obedient _)) _ hx _ ha)

theorem ended (h : Owns i j) (hi : i.Ended (Actor.AtRest (Child.AtRest n))) :
    j.Ended (Actor.AtRest (Child.AtRest k)) := by
  induction h with
  | self => exact hi
  | child hx ha _ ih =>
    have hc := hi.actors _ hx
    rw [ha] at hc
    exact ih hc

end Owns

namespace Interpreter

variable {C : Type} {n k : Nat} {i : NestedInterpreter C n} {j : NestedInterpreter C k}

-- Whatever is done with an interpreter, and through it with the machines it owns: its status moves
-- forwards only; every actor that was started is in its arena or has left it at rest, and what it
-- has done stays done; and once it has stopped, it and all machines that it owns have come to an
-- end for good. What starts and removes actors is traced, which changes nothing.
theorem Lives.lifecycle (hi : i.Lives) (ho : Owns i j) :
    ((∀ (env : Env) (c : NestedInterpreter C k) (trigger : Trigger),
        Prod.fst <$> c.macrostepTracing env trigger = c.macrostep env trigger) ∧
      (∀ (env : Env) (c : NestedInterpreter C k), Prod.fst <$> c.stopTracing env = c.stop env) ∧
      ∀ (env : Env) (c : NestedInterpreter C k) (x : C) (e : Event) (actions : List Planned),
        Prod.fst <$> Shell.performEachTracing env c.machine.registry x e (c.shell, {}) actions =
          c.shell.performEach env c.machine.registry x e actions) ∧
    (∃ m chapters, Session m chapters j) ∧
    (∀ (m : NestedMachine C k) (chapters : List (Chapter C _)), Session m chapters j →
      (Chapter.whole chapters).started.Perm
        (j.shell.actors.ids ++ (Chapter.whole chapters).retired.ids) ∧
      ∀ x ∈ (Chapter.whole chapters).retired, x.actor.AtRest (Child.AtRest k)) ∧
    (j.shell.status = .stopped → ∀ {l : Nat} (c : NestedInterpreter C l), Owns j c →
      c.shell.status = .stopped ∧ c.shell.scheduler.queue = [] ∧
      ∀ x ∈ c.shell.actors, ActorModel.status (C := C) x.actor = .stopped) ∧
    ∀ j', Later j j' → Continues j j' ∧ j.shell.status.Moves j'.shell.status ∧
      (j.shell.status = .stopped →
        j'.state = j.state ∧ j'.shell.scheduler = j.shell.scheduler) := by
  have hj := ho.lives hi
  have hobedient := Actor.obedient (Child.obedient (C := C) k)
  refine ⟨⟨macrostepTracing_forget, stopTracing_forget, fun _ _ _ _ _ =>
    Shell.performEachTracing_forget _ _⟩, hj.session, fun m chapters hs => ?_, fun hs l c hc => ?_,
    fun j' hl => ?_⟩
  · have h := (hs.accounted hobedient).staffed
    exact ⟨h.started, h.retired⟩
  · have h := hc.ended (hj.ended hobedient hs)
    exact ⟨h.status, h.queue, fun x hx => (h.actors x hx).status fun _ => Child.status_of_atRest⟩
  · exact ⟨hl.continues, hj.moves_later hl, fun hs => (hl.final hs).right⟩

-- A machine that is over as soon as it has started, with a child that would go on.
def glance : Definition.State :=
  .mk { key := "m", initial := some "over", invocations := [{ service := "loader" }] } [
    .mk { key := "over", shape := .final } []]

def glanceTree : Tree := ((Definition.Layout.ofState "m" glance).lower "m").value

theorem glance_build : glance.build "m" = .ok glanceTree :=
  Definition.State.build_of_problems (by decide +kernel)

def glanceMachine : NestedMachine Unit 1 where
  tree := glanceTree
  registry := { services := .ofList [("loader", .machine loaderMachine none)] }
  context := ()

def guestId : String := "m:invocation[0]"

def welcome : Planned := .spawn "loader" guestId (some 0) false

-- The child, which is idle.
def guest (s : Shell Unit (Actor (Child Unit 0))) : Actor (Child Unit 1) :=
  .machine (show NestedInterpreter Unit 0 from ⟨loaderMachine, .plain (.ofList [0, 1]), s⟩)

theorem guest_starts : ∃ s : Shell Unit (Actor (Child Unit 0)),
    (ActorModel.start loaderEnv (.machine loaderMachine none : NestedService Unit 1)
      ⟨guestId, "loader", (), .init⟩).outcome = .ok (.ok (guest s)) ∧
      s.status = .running ∧ s.actors = [] := by
  obtain ⟨m, hreacts, ha⟩ : ∃ m, Macrostep.Reacts loaderMachine.tree loaderMachine.registry
      loaderMachine.config (.plain ∅) .start m (.plain (.ofList [0, 1])) ∧ m.actions = [] :=
    Macrostep.exists_reacts (by decide +kernel)
  let i : NestedInterpreter Unit 0 := .spawned loaderMachine guestId
  have hcommit : (commit loaderEnv loaderMachine.registry
      { i.shell with status := .running } m .init).outcome =
        .ok ({ i.shell with status := .running }, none) := by
    rw [commit, ha]
    rfl
  obtain ⟨s, h, hn, _⟩ := start_of_reacts (i := i) loaderEnv rfl hreacts hcommit ⟨rfl, rfl⟩ rfl
  exact ⟨s, Actor.start_machine h, hn.status, hn.actors⟩

theorem guest_stops {s : Shell Unit (Actor (Child Unit 0))} (hr : s.status = .running)
    (ha : s.actors = []) :
    ∃ a, (ActorModel.stop (C := Unit) loaderEnv (guest s)).outcome = .ok a := by
  obtain ⟨m, hm, hact⟩ : ∃ m, Microstep.exitAll loaderMachine.tree loaderMachine.registry .stop
      (.ofList [0, 1]) () ∅ = .ok m ∧ m.actions = [.cancelOwned 1, .cancelOwned 0] :=
    Microstep.exists_eq_ok (by decide +kernel)
  obtain ⟨j, hj⟩ : ∃ j, (Interpreter.stop loaderEnv (⟨loaderMachine, .plain (.ofList [0, 1]), s⟩ :
      NestedInterpreter Unit 0)).outcome = .ok j := by
    have hs : s = { s with actors := [] } := by rw [← ha]
    simp only [Interpreter.stop, hr, MachineState.plain, hm, hact]
    rw [hs]
    exact ⟨_, rfl⟩
  exact ⟨_, Actor.stop_machine hj⟩

-- Its owner stops with it in the arena.
theorem glance_over : ∃ (i : NestedInterpreter Unit 1) (c : NestedInterpreter Unit 0),
    glance.build "m" = .ok i.machine.tree ∧ i.Lives ∧ Owns i c ∧ i.shell.status = .stopped := by
  let i : NestedInterpreter Unit 1 := .new glanceMachine
  obtain ⟨s, hguest, hr, ha⟩ := guest_starts
  obtain ⟨a, hstop⟩ := guest_stops hr ha
  obtain ⟨m, hm, hact, hd⟩ : ∃ m, Microstep.initial glanceMachine.tree glanceMachine.registry .init
      () ∅ = .ok m ∧ m.actions = [welcome] ∧ m.done = true :=
    Microstep.exists_eq_ok (by decide +kernel)
  obtain ⟨posts, hcommit⟩ : ∃ posts, (commit loaderEnv glanceMachine.registry
      { i.shell with status := .running } m .init).outcome = .ok ({ i.shell with
        status := .running
        actors := [⟨guestId, false, guest s⟩]
        mailbox := posts }, none) := by
    obtain ⟨posts, h⟩ :=
      Shell.spawn_of_start (s := { i.shell with status := .running }) false hguest rfl
    refine ⟨posts, ?_⟩
    rw [commit, hact]
    change ((Shell.spawn loaderEnv _ _ _ _ >>= fun s => pure (s, none)) >>= _).outcome = _
    rw [bind_assoc, Turn.outcome_bind, h]
    rfl
  obtain ⟨s', hover, hs'⟩ := start_of_done (i := i) rfl hm hd hcommit
    fun x hx => List.mem_singleton.mp hx ▸ ⟨a, hstop⟩
  obtain ⟨y, rest, hrest, _⟩ := List.map_eq_cons_iff.mp hs'.ids
  have hy : y ∈ s'.actors := hrest ▸ List.mem_cons_self
  obtain ⟨x, hx, _, hxy⟩ := hs'.stopped hy
  obtain ⟨c, hc⟩ : ∃ c, y.actor = .machine c := by
    obtain rfl := List.mem_singleton.mp hx
    generalize y.actor = b at hxy
    cases Actor.stops_of_stop hxy with
    | machine => exact ⟨_, rfl⟩
  exact ⟨_, c, glance_build, Lives.new.operate (.start hover), .child hy hc .self, hs'.status⟩

-- The child that would have gone on is over as well.
theorem Lives.lifecycle_glance : ∃ (i : NestedInterpreter Unit 1) (c : NestedInterpreter Unit 0),
    glance.build "m" = .ok i.machine.tree ∧ i.Lives ∧ Owns i c ∧ i.shell.status = .stopped ∧
      c.shell.status = .stopped ∧ c.shell.scheduler.queue = [] := by
  obtain ⟨i, c, hb, hi, hc, hs⟩ := glance_over
  obtain ⟨_, _, _, hended, _⟩ := hi.lifecycle .self
  obtain ⟨hstatus, hqueue, _⟩ := hended hs c hc
  exact ⟨i, c, hb, hi, hc, hs, hstatus, hqueue⟩

end Interpreter

end Statechart
