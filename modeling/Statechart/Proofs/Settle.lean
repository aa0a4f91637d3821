import Statechart.Proofs.Invariant
import Statechart.Proofs.Perform

-- What a macrostep of an interpreter does after its last microstep.

namespace Statechart

namespace Macrostep

variable {S : Type} (t : Tree) (r : Registry Unit S) (config : Config) (c c' : Configuration)

-- The first microstep from `c`, unless a guard fails before it.
def opening? : Trigger → Option (Microstep Unit)
  | .start => (Microstep.initial t r .init () ∅).toOption
  | .event e =>
    let chosen := selection t r config (.plain c) e false
    match chosen.result, chosen.guardErrors with
    | .ok (u :: us), [] => (Microstep.take t r e c () ∅ (u :: us)).toOption
    | _, _ => none

-- Whether all that comes of the trigger in `c` is one microstep that plans `actions` and leads to
-- `c'`.
def leadsTo (trigger : Trigger) (actions : List Planned) : Bool :=
  let enabled := selection t r config (.plain c') trigger.toEvent true
  ((opening? t r config c trigger).any fun m =>
    m.configuration = c' ∧ m.history = ∅ ∧ m.done = false ∧ m.raised = [] ∧ m.actions = actions) ∧
  1 < config.maxMicrosteps ∧ enabled.result.toOption = some [] ∧ enabled.guardErrors = []

variable {t r config c c'} {trigger : Trigger} {actions : List Planned} {m : Microstep Unit}

theorem opens_of_opening? (h : opening? t r config c trigger = some m) :
    Opens t r config (.plain c) trigger m := by
  cases trigger with
  | start => exact .start (Microstep.eq_ok_of_toOption h)
  | event e =>
    simp only [opening?] at h
    split at h
    case h_1 u us hr hg => exact .event hr hg (by simp) (Microstep.eq_ok_of_toOption h)
    case h_2 => contradiction

theorem exists_reacts (h : leadsTo t r config c c' trigger actions = true) :
    ∃ m, Reacts t r config (.plain c) trigger m (.plain c') ∧ m.actions = actions := by
  obtain ⟨ho, hl, hs, hg⟩ := of_decide_eq_true h
  obtain ⟨m, hm, hp⟩ := Option.any_eq_true .. |>.mp ho
  obtain ⟨hc, hh, hd, hr, ha⟩ := of_decide_eq_true hp
  exact ⟨m, ⟨opens_of_opening? hm, MachineState.plain_after hc hh hd, hr, rfl, hl,
    Evaluation.eq_ok_of_toOption hs, hg⟩, ha⟩

end Macrostep

namespace Interpreter

variable {C S A : Type} {i : Interpreter C S A}

theorem notify_outcome (i : Interpreter C S A) : i.notify.outcome = .ok { i with
    shell.mailbox :=
      i.shell.mailbox ++ (i.shell.listeners.flatMap (·.notify i.snapshot)).map (⟨none, ·⟩) } := by
  rw [notify, Turn.outcome_bind, Shell.callAll_outcome]
  rfl

theorem notify_ok (i : Interpreter C S A) : ∃ s', i.notify.outcome = .ok { i with shell := s' } ∧
    i.shell.Noted s' ∧ s'.lastError = i.shell.lastError :=
  ⟨_, i.notify_outcome,
    ⟨rfl, rfl, rfl, rfl, rfl, ⟨_, rfl⟩, fun hs => by simp [hs.listeners]⟩, rfl⟩

theorem settle_ok [ActorModel C S A] (env : Env) (hd : i.state.done = false) (changed : Bool) :
    ∃ s', (i.settle env changed).outcome = .ok { i with shell := s' } ∧ i.shell.Noted s' ∧
      s'.lastError = i.shell.lastError := by
  cases changed with
  | false => exact ⟨i.shell, by simp [settle, hd], .refl _, rfl⟩
  | true =>
    have ⟨s', h, hn⟩ := i.notify_ok
    exact ⟨s', by simp [settle, hd, h, Except.bind], hn⟩

section Macrostep

variable [ActorModel C S A] {env : Env} {trigger : Trigger} {p : Progress (Shell C A) C}

-- Once its errors are reported, a macrostep goes on with what its microsteps have left.
theorem conclude_eq (i : Interpreter C S A) (env : Env) (trigger : Trigger)
    (p : Progress (Shell C A) C) : i.conclude env trigger p = (do
      let s ← p.shell.reportAll p.guardErrors
      let s ← Shell.reportAll { s with
        lastEvent := some trigger.toEvent
        lastChanged := p.changed } p.error.toList
      let i' := { i with state := p.state, shell := s }
      match p.error with
      | some err => if i'.isFatal then i'.fail env err else i'.settle env p.changed
      | none => i'.settle env p.changed) := by
  rw [conclude]
  refine bind_congr fun s => ?_
  cases p.error with
  | none => rfl
  | some err => rw [Option.toList_some, Shell.reportAll_singleton]

theorem conclude_outcome (i : Interpreter C S A) (env : Env) (trigger : Trigger)
    (p : Progress (Shell C A) C) : ∃ s, p.shell.Noted s ∧
      s.lastError = p.error.or (p.guardErrors.getLast?.or p.shell.lastError) ∧
      (i.conclude env trigger p).outcome =
        let i' := { i with state := p.state, shell := s }
        (match p.error with
        | some err => if i'.isFatal then i'.fail env err else i'.settle env p.changed
        | none => i'.settle env p.changed).outcome := by
  obtain ⟨s₁, h₁, hn₁, herr₁⟩ := Shell.reportAll_ok p.guardErrors p.shell
  let s₂ := { s₁ with lastEvent := some trigger.toEvent, lastChanged := p.changed }
  have hn₂ : p.shell.Noted s₂ := ⟨hn₁.status, hn₁.actors, hn₁.scheduler, hn₁.listeners,
    hn₁.errorListeners, hn₁.mailbox, hn₁.mailbox_of_unheard⟩
  obtain ⟨s₃, h₃, hn₃, herr₃⟩ := Shell.reportAll_ok p.error.toList s₂
  refine ⟨s₃, hn₂.trans hn₃, ?_, ?_⟩
  case refine_1 =>
    rw [herr₃, ← herr₁]
    cases p.error <;> rfl
  case refine_2 =>
    rw [conclude_eq, Turn.outcome_bind, h₁]
    change Turn.outcome (s₂.reportAll p.error.toList >>= _) = _
    rw [Turn.outcome_bind, h₃]
    rfl

theorem macrostep_outcome (hrun : (Macrostep.run i.machine.tree i.machine.registry i.machine.config
      (commit env i.machine.registry) i.shell i.state trigger).outcome = .ok p) :
    ∃ s, p.shell.Noted s ∧
      s.lastError = p.error.or (p.guardErrors.getLast?.or p.shell.lastError) ∧
      (i.macrostep env trigger).outcome =
        let i' := { i with state := p.state, shell := s }
        (match p.error with
        | some err => if i'.isFatal then i'.fail env err else i'.settle env p.changed
        | none => i'.settle env p.changed).outcome := by
  rw [macrostep, Turn.outcome_bind, hrun]
  exact conclude_outcome i env trigger p

-- Under the policy that goes on after errors, that is all.
theorem macrostep_of_run (hrun : (Macrostep.run i.machine.tree i.machine.registry i.machine.config
      (commit env i.machine.registry) i.shell i.state trigger).outcome = .ok p)
    (ha : i.machine.config.errorPolicy = .abort) (hd : p.state.done = false)
    (hc : p.state.configuration ≠ ∅) :
    ∃ s, (i.macrostep env trigger).outcome = .ok { i with state := p.state, shell := s } ∧
      p.shell.Noted s ∧
      s.lastError = p.error.or (p.guardErrors.getLast?.or p.shell.lastError) := by
  have ⟨s, hn, herr, h⟩ := macrostep_outcome hrun
  have hfatal : ({ i with state := p.state, shell := s } : Interpreter C S A).isFatal = false := by
    have hc : p.state.configuration.isEmpty = false := by simpa [Bool.eq_false_iff] using hc
    simp [isFatal, ha, hc]
  have ⟨s', h', hn', herr'⟩ :=
    settle_ok env (i := { i with state := p.state, shell := s }) hd p.changed
  refine ⟨s', ?_, hn.trans hn', herr'.trans herr⟩
  rw [h, ← h']
  cases p.error with
  | none => rfl
  | some err => simp [hfatal]

theorem drain_of_empty (h : i.shell.mailbox = []) : i.drain env = pure i := by
  rw [drain]
  cases env.fuel <;> simp [drainWithin, h]

theorem start_of_macrostep {i' : Interpreter C S A} (hi : i.shell.status = .notStarted)
    (h : (macrostep env { i with shell.status := .running } .start).outcome = .ok i')
    (hm : i'.shell.mailbox = []) : (i.start env).outcome = .ok i' := by
  rw [start, if_pos hi, Turn.outcome_bind, h]
  exact congrArg Turn.outcome (drain_of_empty hm)

theorem forward_of_none {s : Shell C A} {e : Event} (h : ∀ a ∈ s.actors, a.autoForward = false) :
    s.forward env e = pure s := by
  have hgo (rest seen : Arena A) (hr : ∀ a ∈ rest, a.autoForward = false) :
      Shell.eachActor.go (·.autoForward) (ActorModel.send env e) rest seen s =
        pure { s with actors := seen ++ rest } := by
    induction rest generalizing seen with
    | nil => simp [Shell.eachActor.go]
    | cons a rest ih =>
      rw [Shell.eachActor.go, if_neg (by simp [hr a List.mem_cons_self]),
        ih _ fun b hb => hr b (List.mem_cons_of_mem _ hb), List.append_assoc]
      rfl
  rw [Shell.forward, Shell.eachActor, hgo _ _ h]
  rfl

theorem process_of_outside {v : Envelope} (ho : v.origin = none)
    (h : ∀ a ∈ i.shell.actors, a.autoForward = false) :
    i.process env v = i.macrostep env (.event v.event) := by
  rw [process, ho]
  dsimp only
  rw [forward_of_none h, pure_bind]

-- An event that is sent starts a macrostep, and that is all if nothing is waiting before or after.
theorem send_of_macrostep {i' : Interpreter C S A} {e : Event} (hf : env.fuel ≠ 0)
    (hr : i.shell.status = .running) (hm : i.shell.mailbox = [])
    (ha : ∀ a ∈ i.shell.actors, a.autoForward = false)
    (h : (i.macrostep env (.event e)).outcome = .ok i') (hm' : i'.shell.mailbox = []) :
    (i.send env e).outcome = .ok i' := by
  have hi : { i with shell.mailbox := [] } = i := by rw [← hm]
  obtain ⟨n, hn⟩ := Nat.exists_eq_succ_of_ne_zero hf
  have hp : i.post e = { i with shell.mailbox := [{ event := e }] } := by
    simp [post, Shell.queue, hm]
  have hdrain : i'.drainWithin env n = pure i' := by
    cases n <;> simp [drainWithin, hm']
  rw [send, if_pos (by simp [isRunning, hr]), hp, drain, hn]
  unfold drainWithin
  rw [if_neg (by simp [isRunning, hr])]
  change (process env { i with shell.mailbox := [] } { event := e } >>= _).outcome = _
  rw [hi, process_of_outside rfl ha, Turn.outcome_bind, h]
  exact congrArg Turn.outcome hdrain

variable {m : Microstep C} {x : MachineState C} {s : Shell C A}

theorem macrostep_of_reacts (env : Env)
    (h : Macrostep.Reacts i.machine.tree i.machine.registry i.machine.config i.state trigger m x)
    (hc : (commit env i.machine.registry i.shell m trigger.toEvent).outcome = .ok (s, none)) :
    ∃ s', (i.macrostep env trigger).outcome = .ok { i with state := x, shell := s' } ∧ s.Noted s' ∧
      s'.lastError = s.lastError := by
  have ⟨s₁, hn₁, herr₁, h₁⟩ := macrostep_outcome (Macrostep.run_of_reacts h hc)
  have ⟨s', h', hn, herr⟩ :=
    settle_ok env (i := { i with state := x, shell := s₁ }) h.running true
  exact ⟨s', h₁.trans h', hn₁.trans hn, herr.trans herr₁⟩

-- A machine starts with the nodes that it first enters if nothing is enabled there.
theorem start_of_reacts (env : Env) (hi : i.shell.status = .notStarted)
    (h : Macrostep.Reacts i.machine.tree i.machine.registry i.machine.config i.state .start m x)
    (hc : (commit env i.machine.registry { i.shell with status := .running } m .init).outcome =
      .ok (s, none)) (hl : s.Unheard) (hb : s.mailbox = []) :
    ∃ s', (i.start env).outcome = .ok { i with state := x, shell := s' } ∧ s.Noted s' ∧
      s'.lastError = s.lastError := by
  have ⟨s', h, hn, herr⟩ := macrostep_of_reacts env (i := { i with shell.status := .running }) h hc
  exact ⟨s', start_of_macrostep hi h ((hn.mailbox_of_unheard hl).trans hb), hn, herr⟩

end Macrostep

end Interpreter

end Statechart
