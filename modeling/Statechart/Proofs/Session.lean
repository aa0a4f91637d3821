import Statechart.Interpreter.Nested
import Statechart.Proofs.Tracing

-- What an interpreter does from its start on, macrostep by macrostep, and what its machine does by
-- itself when it is given the same events.

namespace Statechart

inductive Chapter (C A : Type)
  -- a macrostep
  | ran (trigger : Trigger) (trace : Trace C A)
  -- the start from a checkpoint
  | resumed (trace : Trace C A)
  | stopped (trace : Trace C A)
  -- the start from a checkpoint of a machine that was done
  | halted

namespace Chapter

variable {C A : Type} {chapters : List (Chapter C A)} {x : Chapter C A}

-- The events that are processed.
def events : Chapter C A → List Event
  | ran trigger _ => trigger.events
  | _ => []

def trace : Chapter C A → Trace C A
  | ran _ trace | resumed trace | stopped trace => trace
  | halted => {}

-- What is performed.
def record (x : Chapter C A) : Record := x.trace.record

-- The traces of all chapters as one.
def whole (chapters : List (Chapter C A)) : Trace C A where
  performances := chapters.flatMap (·.trace.performances)
  started := chapters.flatMap (·.trace.started)
  retired := chapters.flatMap (·.trace.retired)

theorem whole_append : whole (chapters ++ [x]) = {
    performances := (whole chapters).performances ++ x.trace.performances
    started := (whole chapters).started ++ x.trace.started
    retired := (whole chapters).retired ++ x.trace.retired } := by
  simp [whole]

end Chapter

namespace Machine

variable {C S : Type} {m : Machine C S} {es : List Event} {e : Event} {step : MachineStep C}

end Machine

namespace Interpreter

variable {C S A : Type} [ActorModel C S A]

-- An interpreter of `m` and what it has done so far.
inductive Session (m : Machine C S) : List (Chapter C A) → Interpreter C S A → Prop
  | new {i} : i.machine = m → i.state = .unstarted m.context → i.shell.status = .notStarted →
      i.shell.actors = [] → i.shell.scheduler.queue = [] → Session m [] i
  -- no macrostep runs, no actor starts and none leaves
  | aside {chapters i s} : Session m chapters i → s.status = i.shell.status →
      (s.scheduler = i.shell.scheduler ∨ i.shell.status = .running) →
      i.shell.actors.Evolves C s.actors → Session m chapters { i with shell := s }
  | start {chapters i env t j} : Session m chapters i → i.shell.status = .notStarted →
      (macrostepTracing env { i with shell.status := .running } .start).outcome = .ok (j, t) →
      Session m (chapters ++ [.ran .start t]) j
  | event {chapters i env e t j} : Session m chapters i → i.shell.status = .running →
      (macrostepTracing env i (.event e)).outcome = .ok (j, t) →
      Session m (chapters ++ [.ran (.event e) t]) j
  | resume {chapters i env c x actions s t} : Session m chapters i →
      i.resumption c = .ok (x, actions) → x.done = false →
      (Shell.performEachTracing env i.machine.registry x.context .init
        ({ i.shell with status := .running, lastEvent := some .init }, {}) actions).outcome =
          .ok (s, t) →
      Session m (chapters ++ [.resumed t]) { i with state := x, shell := s }
  | halt {chapters i env c x actions j} : Session m chapters i →
      i.resumption c = .ok (x, actions) → x.done = true →
      (Interpreter.halt env { i with
        state := x
        shell.status := .running
        shell.lastEvent := some .init }).outcome = .ok j →
      Session m (chapters ++ [.halted]) j
  | stop {chapters i env t j} : Session m chapters i → (i.stopTracing env).outcome = .ok (j, t) →
      Session m (chapters ++ [.stopped t]) j

variable {m : Machine C S} {chapters : List (Chapter C A)} {i i' : Interpreter C S A}
  {now : Duration} {env : Env}

namespace Session

theorem machine (h : Session m chapters i) : i.machine = m := by
  induction h with
  | new hm => exact hm
  | aside _ _ _ _ ih | resume _ _ _ _ ih => exact ih
  | start _ _ hj ih | event _ _ hj ih => exact (macrostepTracing_follows hj).left.trans ih
  | halt _ _ _ hj ih =>
    obtain ⟨_, rfl, _⟩ := halt_ok hj
    exact ih
  | stop _ hj ih => exact (stopped_of_stopTracing hj).left.trans ih

-- Until something is done the interpreter is not started.
theorem nil_iff (h : Session m chapters i) : chapters = [] ↔ i.shell.status = .notStarted := by
  have hmacrostep {i j : Interpreter C S A} {env : Env} {trigger : Trigger} {t : Trace C A}
      (hi : i.shell.status = .running)
      (h : (i.macrostepTracing env trigger).outcome = .ok (j, t)) :
      j.shell.status ≠ .notStarted := by
    obtain ⟨_, hs | ⟨_, hf⟩⟩ := macrostepTracing_follows h
    · simp [hs]
    · simp [hf.status, hi]
  induction h with
  | new _ _ hn => simp [hn]
  | aside _ hs _ _ ih => exact ih.trans (by simp [hs])
  | start _ _ hj => simpa using hmacrostep rfl hj
  | event _ hi hj => simpa using hmacrostep hi hj
  | @resume _ _ _ _ _ _ s _ _ _ _ hp =>
    have hs : s.status = .running := (Shell.performEachTracing_follows hp).status
    simp [hs]
  | halt _ _ _ hj =>
    obtain ⟨_, rfl, hr⟩ := halt_ok hj
    simp [hr.status]
  | stop _ hj => simp [(stopped_of_stopTracing hj).right]

theorem unstarted (h : Session m chapters i) (hc : chapters = []) :
    i.state = .unstarted m.context := by
  induction h with
  | new _ hs => exact hs
  | aside _ _ _ _ ih => exact ih hc
  | _ => simp at hc

-- An interpreter stops as soon as its machine is done.
theorem not_done (h : Session m chapters i) (hr : i.shell.status = .running) :
    i.state.done = false := by
  have hmacrostep {i j : Interpreter C S A} {env : Env} {trigger : Trigger} {t : Trace C A}
      (h : (i.macrostepTracing env trigger).outcome = .ok (j, t))
      (hj : j.shell.status = .running) : j.state.done = false := by
    obtain ⟨_, hs | ⟨hd, _⟩⟩ := macrostepTracing_follows h
    · simp [hs] at hj
    · exact hd
  induction h with
  | new _ _ hn => simp [hn] at hr
  | aside _ hs _ _ ih => exact ih (hs ▸ hr)
  | start _ _ hj | event _ _ hj => exact hmacrostep hj hr
  | resume _ _ hd => exact hd
  | halt _ _ _ hj =>
    obtain ⟨_, rfl, hs⟩ := halt_ok hj
    cases hs.status.symm.trans hr
  | stop _ hj => cases (stopped_of_stopTracing hj).right.symm.trans hr

end Session

-- What is done with `i` to get to `i'` continues every session.
def Continues (i i' : Interpreter C S A) : Prop :=
  ∀ (m : Machine C S) (chapters : List (Chapter C A)), Session m chapters i →
    ∃ later, Session m (chapters ++ later) i'

-- It comes to some macrosteps.
def Plays (i i' : Interpreter C S A) : Prop :=
  ∀ (m : Machine C S) (chapters : List (Chapter C A)), Session m chapters i →
    ∃ later, Session m (chapters ++ later) i' ∧ ∀ x ∈ later, ∃ trigger t, x = .ran trigger t

namespace Plays

theorem continues (h : Plays i i') : Continues i i' := fun _ _ hs =>
  have ⟨_, hs, _⟩ := h _ _ hs
  ⟨_, hs⟩

theorem of_session (h : ∀ (m : Machine C S) (chapters : List (Chapter C A)), Session m chapters i →
    Session m chapters i') : Plays i i' :=
  fun _ _ hs => ⟨[], (List.append_nil _).symm ▸ h _ _ hs, List.forall_mem_nil _⟩

theorem of_ran {trigger : Trigger} {t : Trace C A}
    (h : ∀ (m : Machine C S) (chapters : List (Chapter C A)), Session m chapters i →
      Session m (chapters ++ [.ran trigger t]) i') : Plays i i' :=
  fun _ _ hs => ⟨_, h _ _ hs, List.forall_mem_singleton.mpr ⟨_, _, rfl⟩⟩

theorem refl (i : Interpreter C S A) : Plays i i := of_session fun _ _ hs => hs

theorem trans {i'' : Interpreter C S A} (h : Plays i i') (h' : Plays i' i'') : Plays i i'' := by
  intro m chapters hs
  obtain ⟨later, hs, hran⟩ := h _ _ hs
  obtain ⟨later', hs, hran'⟩ := h' _ _ hs
  exact ⟨later ++ later', List.append_assoc .. ▸ hs, List.forall_mem_append.mpr ⟨hran, hran'⟩⟩

theorem event {e : Event} (hr : i.shell.status = .running)
    (h : (i.macrostep env (.event e)).outcome = .ok i') : Plays i i' := by
  obtain ⟨_, ht⟩ := exists_macrostepTracing h
  exact of_ran fun _ _ hs => hs.event hr ht

theorem process {v : Envelope} (hr : i.shell.status = .running)
    (h : (i.process env v).outcome = .ok i') : Plays i i' := by
  rw [Interpreter.process] at h
  split at h
  case h_1 =>
    split at h
    case isTrue => exact event hr h
    case isFalse =>
      cases h
      exact refl i
  case h_2 =>
    obtain ⟨s, hs, h⟩ := Turn.bind_eq_ok.mp h
    obtain ⟨_, hrec⟩ := (Shell.eachActor_ok hs).left.receives
    have he := Shell.eachActor_evolves (fun _ _ => .send) hs
    have haside : Plays i { i with shell := s } :=
      of_session fun _ _ h => h.aside hrec.status (.inl hrec.scheduler) he
    exact haside.trans (event (hrec.status.trans hr) h)

theorem advances (env : Env) : Advances (C := C) (S := S) (A := A) env Plays where
  refl := refl
  trans := trans
  receives hr hi := of_session fun _ _ hs => hs.aside hr.status (.inl hr.scheduler) hi
  start hn hj := by
    obtain ⟨_, ht⟩ := exists_macrostepTracing hj
    exact of_ran fun _ _ hs => hs.start hn ht
  process {i _ v} hr hj := by
    have haside : Plays { i with shell.mailbox := v :: i.shell.mailbox } i :=
      of_session fun _ _ hs => hs.aside (s := i.shell) rfl (.inl rfl) (.refl _)
    exact haside.trans (process hr hj)
  deliver {i _ rest _} hr _ _ hs := by
    obtain ⟨_, hrec⟩ := (Shell.deliver_ok hs).left.receives
    have he := Shell.deliver_evolves (s := { i.shell with scheduler.queue := rest }) hs
    exact of_session fun _ _ h => h.aside hrec.status (.inr hr) he

end Plays

theorem continues_stop (h : (i.stop env).outcome = .ok i') : Continues i i' := by
  obtain ⟨_, ht⟩ := exists_stopTracing h
  exact fun _ _ hs => ⟨_, hs.stop ht⟩

theorem continues_traces (env : Env) : Traces (C := C) (S := S) (A := A) env Continues where
  refl i := (Plays.refl i).continues
  trans h h' _ _ hs := by
    obtain ⟨later, hs⟩ := h _ _ hs
    obtain ⟨later', hs⟩ := h' _ _ hs
    exact ⟨later ++ later', List.append_assoc .. ▸ hs⟩
  receives hr hi := ((Plays.advances env).receives hr hi).continues
  start hn hj := ((Plays.advances env).start hn hj).continues
  process hr hj := ((Plays.advances env).process hr hj).continues
  deliver hr hq hd hs := ((Plays.advances env).deliver hr hq hd hs).continues
  stop := continues_stop
  resume hc hd hj _ _ hs := ⟨_, hs.halt hc hd hj⟩
  resumeEach hc hd hp _ _ hs := by
    obtain ⟨_, ht⟩ := Shell.exists_performEachTracing hp
    exact ⟨_, hs.resume hc hd ht⟩

-- Unless it stops or restores the interpreter, what is done with it comes to some macrosteps.
theorem Operates.plays (h : Operates env i i') :
    Plays i i' ∨ (i.stop env).outcome = .ok i' ∨ ∃ c, (i.restore env c).outcome = .ok (.ok i') :=
  (Plays.advances env).operates h

-- Whatever is done with an interpreter is a session.
theorem Runs.session (h : Runs m now i) : ∃ chapters, Session m chapters i := by
  induction h with
  | new => exact ⟨_, .new rfl rfl rfl rfl rfl⟩
  | spawned => exact ⟨_, .new rfl rfl rfl rfl rfl⟩
  | wait _ _ ih => exact ih
  | operate _ ho ih =>
    obtain ⟨_, hs⟩ := ih
    obtain ⟨_, hs⟩ := (continues_traces _).operates ho _ _ hs
    exact ⟨_, hs⟩

section Loader

-- Loading can be begun anew until something is there to be shown.
def loader : Definition.State :=
  .mk { key := "m", initial := some "idle" } [
    .mk { key := "idle", transitions := [(.event "LOAD", { targets := ["loading"] })] } [],
    .mk {
      key := "loading"
      transitions := [(.event "LOAD", { targets := ["loading"] })]
      invocations := [{ service := "fetch", onDone := some { targets := ["shown"] } }] } [],
    .mk { key := "shown" } []]

def loaderTree : Tree := ((Definition.Layout.ofState "m" loader).lower "m").value

theorem loader_build : loader.build "m" = .ok loaderTree :=
  Definition.State.build_of_problems (by decide +kernel)

-- What is fetched is what was asked for.
def loaderMachine : NestedMachine Unit 0 where
  tree := loaderTree
  registry := { services := .ofList [("fetch", .future fun _ e => .ok e.data)] }
  context := ()

def loaderEnv : Env := { now := .zero, hasTasks := true }

def load (n : Int) : Event := ⟨"LOAD", .int n⟩

def loaderId : String := "m.loading:invocation[0]"

def fetch : Planned := .spawn "fetch" loaderId (some 2) false

def loaderShell (fetched : List Int) : Shell Unit (Actor (Child Unit 0)) where
  id := "m"
  status := .running
  actors := fetched.map fun n =>
    { id := loaderId, actor := .future (some (.resolve (.int n))) }

theorem loader_idle : ∃ (s : Shell Unit (Actor (Child Unit 0))) (t : Trace Unit _),
    Runs loaderMachine .zero ⟨loaderMachine, .plain (.ofList [0, 1]), s⟩ ∧
      Session loaderMachine [.ran .start t] ⟨loaderMachine, .plain (.ofList [0, 1]), s⟩ ∧
      t.record = [] ∧ (loaderShell []).Noted s := by
  obtain ⟨m, hreacts, ha⟩ : ∃ m, Macrostep.Reacts loaderMachine.tree loaderMachine.registry
      loaderMachine.config (.plain ∅) .start m (.plain (.ofList [0, 1])) ∧ m.actions = [] :=
    Macrostep.exists_reacts (by decide +kernel)
  have hcommit : (commit loaderEnv loaderMachine.registry (loaderShell []) m .init).outcome =
      .ok (loaderShell [], none) := by
    rw [commit, ha]
    rfl
  let i : NestedInterpreter Unit 0 := .new loaderMachine
  obtain ⟨s, t, ht, hrec, hn⟩ := macrostepTracing_of_reacts loaderEnv
    (i := { i with shell.status := .running }) hreacts hcommit
  rw [ha] at hrec
  have hstart : (start loaderEnv i).outcome = .ok ⟨loaderMachine, .plain (.ofList [0, 1]), s⟩ :=
    start_of_macrostep rfl (macrostep_of_tracing ht) (hn.mailbox_of_unheard ⟨rfl, rfl⟩)
  exact ⟨s, t, .operate .new (.start hstart), .start (.new rfl rfl rfl rfl rfl) rfl ht, hrec, hn⟩

-- Something is asked for.
theorem loader_loads : ∃ (s₀ s : Shell Unit (Actor (Child Unit 0))) (t t' : Trace Unit _),
    Runs loaderMachine .zero ⟨loaderMachine, .plain (.ofList [0, 1]), s₀⟩ ∧
      Session loaderMachine [.ran .start t] ⟨loaderMachine, .plain (.ofList [0, 1]), s₀⟩ ∧
      t.record = [] ∧ (loaderShell []).Noted s₀ ∧
      (macrostepTracing loaderEnv ⟨loaderMachine, .plain (.ofList [0, 1]), s₀⟩
        (.event (load 1))).outcome = .ok (⟨loaderMachine, .plain (.ofList [0, 2]), s⟩, t') ∧
      t'.record = [(.cancelOwned 1, none), (fetch, none)] ∧ (loaderShell [1]).Noted s := by
  obtain ⟨s₀, t, hruns, hs₀, hrec₀, hn₀⟩ := loader_idle
  have hmail := hn₀.mailbox_of_unheard ⟨rfl, rfl⟩
  obtain ⟨m, hreacts, ha⟩ : ∃ m, Macrostep.Reacts loaderMachine.tree loaderMachine.registry
      loaderMachine.config (.plain (.ofList [0, 1])) (.event (load 1)) m (.plain (.ofList [0, 2])) ∧
        m.actions = [.cancelOwned 1, fetch] :=
    Macrostep.exists_reacts (by decide +kernel)
  have hcommit : (commit loaderEnv loaderMachine.registry s₀ m (load 1)).outcome =
      .ok ({ s₀ with actors := (loaderShell [1]).actors }, none) := by
    have hs : s₀ = { s₀ with scheduler := {}, actors := [], mailbox := [] } := by
      have hsc : {} = s₀.scheduler := hn₀.scheduler.symm
      have ha : [] = s₀.actors := hn₀.actors.symm
      have hm : [] = s₀.mailbox := hmail.symm
      rw [hsc, ha, hm]
    rw [commit, ha, hs]
    rfl
  have hloading : (loaderShell [1]).Noted { s₀ with actors := (loaderShell [1]).actors } :=
    ⟨hn₀.status, rfl, hn₀.scheduler, hn₀.listeners, hn₀.errorListeners, hn₀.mailbox,
      fun _ => hmail⟩
  obtain ⟨s, t', ht, hrec, hn⟩ := macrostepTracing_of_reacts loaderEnv
    (i := ⟨loaderMachine, .plain (.ofList [0, 1]), s₀⟩) hreacts hcommit
  rw [ha] at hrec
  exact ⟨s₀, s, t, t', hruns, hs₀, hrec₀, hn₀, ht, hrec, hloading.trans hn⟩

theorem loader_loading : ∃ (s : Shell Unit (Actor (Child Unit 0))) (t t' : Trace Unit _),
    Runs loaderMachine .zero ⟨loaderMachine, .plain (.ofList [0, 2]), s⟩ ∧
      Session loaderMachine [.ran .start t, .ran (.event (load 1)) t']
        ⟨loaderMachine, .plain (.ofList [0, 2]), s⟩ ∧
      t.record = [] ∧ t'.record = [(.cancelOwned 1, none), (fetch, none)] ∧
      (loaderShell [1]).Noted s := by
  obtain ⟨s₀, s, t, t', hruns, hs₀, hrec₀, hn₀, ht, hrec, hn⟩ := loader_loads
  have hsend : (send loaderEnv ⟨loaderMachine, .plain (.ofList [0, 1]), s₀⟩ (load 1)).outcome =
      .ok ⟨loaderMachine, .plain (.ofList [0, 2]), s⟩ :=
    send_of_macrostep (by decide) hn₀.status (hn₀.mailbox_of_unheard ⟨rfl, rfl⟩)
      (hn₀.actors ▸ List.forall_mem_nil _) (macrostep_of_tracing ht)
      (hn.mailbox_of_unheard ⟨rfl, rfl⟩)
  exact ⟨s, t, t', .operate hruns (.send hsend), hs₀.event hn₀.status ht, hrec₀, hrec, hn⟩

end Loader

end Interpreter

end Statechart
