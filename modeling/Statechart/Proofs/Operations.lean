import Statechart.Proofs.Actors

-- Whatever is done with an interpreter continues its course.

namespace Statechart

variable {C S A : Type} [ActorModel C S A] {m : Machine C S} {now : Duration} {log : Log C}
  {env : Env}

namespace Course

variable {s : MachineState C} {shell shell' : Shell C A} {p q p' : Progress (Shell C A) C}
  {v : Envelope} {stage stage' : Stage C A} {hs : List (Happening C)} {us : List Transition}
  {step : Microstep C} {err : ExecutionError}

-- What has happened can go on to `stage` without time passing.
def LeadsTo (m : Machine C S) (now : Duration) (log : Log C) (stage : Stage C A) : Prop :=
  ∃ log', log <:+ log' ∧ Course m now log' stage

theorem leads (h : Course m now log stage) : LeadsTo m now log stage :=
  ⟨log, List.suffix_refl _, h⟩

theorem LeadsTo.bind (h : LeadsTo m now log stage)
    (h' : ∀ log', Course m now log' stage → LeadsTo m now log' stage') :
    LeadsTo m now log stage' := by
  have ⟨log', hl, h⟩ := h
  have ⟨log'', hl', h⟩ := h' log' h
  exact ⟨log'', hl.trans hl', h⟩

theorem commits (h : Course m env.now log stage) (hp : Plans m stage hs q us step)
    (hc : (Interpreter.commit env m.registry q.shell step q.current).outcome = .ok (shell, none)) :
    LeadsTo m env.now log (.stepping (q.accept shell step)) := by
  have ⟨vs, hm⟩ := (Shell.performAll_obeys hc).mailbox
  exact ⟨_, Log.suffix_cons_append _, h.commit hp rfl hc hm⟩

theorem refuses (h : Course m env.now log stage) (hp : Plans m stage hs q us step)
    (hc : (Interpreter.commit env m.registry q.shell step q.current).outcome =
      .ok (shell, some err)) :
    LeadsTo m env.now log (.resting { q.state with context := step.context } shell) := by
  have ⟨vs, hm⟩ := (Shell.performAll_obeys hc).mailbox
  exact ⟨_, Log.suffix_cons_append _, h.refuse hp rfl hc hm⟩

theorem rounds (h : LeadsTo m env.now log (.stepping p))
    (hr : Relation.ReflTransGen (Macrostep.Round m.tree m.registry m.config
      (Interpreter.commit env m.registry)) p q) : LeadsTo m env.now log (.stepping q) := by
  induction hr with
  | refl => exact h
  | tail _ hr ih =>
    refine ih.bind fun log' h => ?_
    cases hr with
    | microstep ho ht =>
      cases ht with
      | intro ha hc => exact h.commits (.round ho ha) hc
    | skip hs hr he => exact (h.skip hs hr he).leads

theorem ends (h : LeadsTo m env.now log (.stepping p))
    (hp : Macrostep.Ends m.tree m.registry m.config (Interpreter.commit env m.registry) p p') :
    LeadsTo m env.now log (.resting p'.state p'.shell) := by
  refine h.bind fun log' h => ?_
  cases hp with
  | resting hst hsh => exact hst ▸ hsh ▸ h.rest.leads
  | refused ho ha hc => exact h.refuses (.round ho ha) hc

-- A macrostep for the event that is first in the mailbox.
theorem runs_event
    (h : Course m env.now log (.resting s { shell with mailbox := v :: shell.mailbox }))
    (hr : shell.status = .running)
    (hp : Macrostep.Finishes m.tree m.registry m.config (Interpreter.commit env m.registry) shell s
      (.event v.event) p) : LeadsTo m env.now log (.resting p.state p.shell) := by
  cases hp with
  | unmoved hst hsh _ =>
    rw [hst, hsh]
    exact ⟨_, List.suffix_cons .., h.drop hr rfl⟩
  | refused hs hus ha hc => exact h.refuses (.event hr rfl hs hus ha) hc
  | started hst hrs he =>
    refine ends (rounds ?_ hrs) he
    cases hst with
    | event hs hus ht =>
      cases ht with
      | intro ha hc => exact h.commits (.event hr rfl hs hus ha) hc

-- The first macrostep, unless it fails before anything is done.
theorem runs_start (h : Course m env.now log (.resting s shell)) (hn : shell.status = .notStarted)
    (hp : Macrostep.Finishes m.tree m.registry m.config (Interpreter.commit env m.registry)
      { shell with status := .running } s .start p) :
    (p.state = s ∧ p.shell = { shell with status := .running } ∧ p.error ≠ none) ∨
      LeadsTo m env.now log (.resting p.state p.shell) := by
  cases hp with
  | unmoved hst hsh he => exact .inl ⟨hst, hsh, he rfl⟩
  | unstarted hm hc => exact .inr (h.refuses (.start hn hm) hc)
  | started hst hrs he =>
    refine .inr (ends (rounds ?_ hrs) he)
    cases hst with
    | start hm hc => exact h.commits (.start hn hm) hc

end Course

namespace Interpreter

variable {i i' : Interpreter C S A} {e : Event} {err : ExecutionError} {vs : List Envelope}
  {s : Shell C A}

-- Without time passing, the course of `i` goes on to `i'`.
structure Becomes (now : Duration) (i i' : Interpreter C S A) : Prop where
  machine : i'.machine = i.machine
  course {log : Log C} : Course i.machine now log (.resting i.state i.shell) →
    Course.LeadsTo i.machine now log (.resting i'.state i'.shell)

namespace Becomes

theorem refl (i : Interpreter C S A) : Becomes now i i := ⟨rfl, Course.leads⟩

theorem trans {i'' : Interpreter C S A} (h : Becomes now i i') (h' : Becomes now i' i'') :
    Becomes now i i'' :=
  ⟨h'.machine.trans h.machine, fun hl => (h.course hl).bind fun _ hl =>
    h.machine ▸ h'.course (h.machine ▸ hl)⟩

theorem of_receives (h : i.shell.Receives vs s) : Becomes now i { i with shell := s } :=
  ⟨rfl, fun hl => ⟨_, List.suffix_append .., hl.arrive h⟩⟩

theorem of_posted (h : Shell.Posted { i.shell with actors := s.actors } s) :
    Becomes now i { i with shell := s } :=
  have ⟨_, hs⟩ := h.receives
  of_receives ⟨hs.status, hs.scheduler, hs.mailbox⟩

theorem of_noted (h : i.shell.Noted s) : Becomes now i { i with shell := s } :=
  have ⟨_, hs⟩ := h.receives
  of_receives hs

theorem of_halts {x : C} (h : i.shell.Halts vs s) :
    Becomes now i { i with state.context := x, shell := s } :=
  ⟨rfl, fun hl => ⟨_, Log.suffix_cons_append _, hl.halt h⟩⟩

theorem of_rests {x : C} (h : i.shell.Rests s) :
    Becomes now i { i with state.context := x, shell := s } :=
  have ⟨_, hh⟩ := h.halts
  of_halts hh

end Becomes

theorem halt_ok (h : (i.halt env).outcome = .ok i') :
    ∃ s, i' = { i with shell := s } ∧ i.shell.Rests s := by
  have ⟨s, hs, h⟩ := Turn.bind_eq_ok.mp h
  cases h
  exact ⟨s, rfl, Shell.halt_rests hs⟩

theorem fail_ok (h : (i.fail env err).outcome = .ok i') :
    ∃ s, i' = { i with shell := s } ∧ i.shell.Rests s := by
  have ⟨_, _, h⟩ := Turn.bind_eq_ok.mp h
  have h : (halt env { i with shell.failure := some err }).outcome = .ok i' := by
    split at h
    · have ⟨_, _, h⟩ := Turn.bind_eq_ok.mp h
      exact h
    · exact h
  have ⟨s, hi, hs⟩ := halt_ok h
  exact ⟨s, hi, hs.status, hs.queue, hs.ids, hs.stopped, hs.mailbox⟩

-- An interpreter that finishes halts once its listeners have been told.
theorem finish_outcome (i : Interpreter C S A) (env : Env) : ∃ s, i.shell.Posted s ∧
    (i.finish env).outcome = (halt env { i with shell := s }).outcome := by
  obtain ⟨s, h, hp⟩ := Shell.callAll_posted i.shell.doneListeners
    (fun _ => .finished (i.state.doneData.getD .null)) (· (i.state.doneData.getD .null)) i.shell
  refine ⟨s, hp, ?_⟩
  rw [finish, Turn.outcome_bind, h]
  change Turn.outcome (if i.shell.hasParent then _ else _) = _
  split <;> rfl

theorem finish_ok (h : (i.finish env).outcome = .ok i') :
    ∃ s, i' = { i with shell := s } ∧ i.shell.Rests s := by
  obtain ⟨s, hp, ho⟩ := i.finish_outcome env
  obtain ⟨s', hi, hs⟩ := halt_ok (ho.symm.trans h)
  exact ⟨s', hi, hp.rests hs⟩

-- An interpreter that is done halts if its actors can be stopped.
theorem settle_of_done (changed : Bool) (hd : i.state.done = true)
    (hs : ∀ x ∈ i.shell.actors, ∃ a, (ActorModel.stop (C := C) env x.actor).outcome = .ok a) :
    ∃ s, (i.settle env changed).outcome = .ok { i with shell := s } ∧ i.shell.Rests s := by
  obtain ⟨s₁, hn, h₁⟩ : ∃ s₁, i.shell.Noted s₁ ∧ (i.settle env changed).outcome =
      (finish env { i with shell := s₁ }).outcome := by
    cases changed with
    | false => exact ⟨i.shell, .refl _, by simp [settle, hd]⟩
    | true =>
      obtain ⟨s, h, hn, _⟩ := i.notify_ok
      exact ⟨s, hn, by simp [settle, hd, h, Except.bind]⟩
  obtain ⟨s₂, hp, hfinish⟩ := finish_outcome { i with shell := s₁ } env
  obtain ⟨s₃, h₃⟩ := Shell.exists_eachActor (s := { s₂ with status := .stopped })
    (p := fun _ => true) (f := ActorModel.stop env) fun x hx => hs x (hn.actors ▸ hp.actors ▸ hx)
  have hhalt : (s₂.halt env).outcome = .ok { s₃ with scheduler := s₃.scheduler.cancelAll } := by
    rw [Shell.halt, Turn.outcome_bind, h₃]
    rfl
  refine ⟨_, ?_, hn.rests (hp.rests (Shell.halt_rests hhalt))⟩
  rw [h₁, hfinish, halt, Turn.outcome_bind, hhalt]
  rfl

-- What a macrostep does at last: its listeners are told, or the interpreter halts.
theorem settle_cases {changed : Bool} (h : (i.settle env changed).outcome = .ok i') :
    (i.state.done = false ∧ ∃ s, i' = { i with shell := s } ∧ i.shell.Noted s) ∨
      ∃ s, i' = { i with shell := s } ∧ i.shell.Rests s := by
  obtain ⟨s₁, hn, h⟩ : ∃ s₁, i.shell.Noted s₁ ∧ (if i.state.done then
      finish env { i with shell := s₁ } else pure { i with shell := s₁ }).outcome = .ok i' := by
    cases changed with
    | false => exact ⟨i.shell, .refl _, h⟩
    | true =>
      obtain ⟨s, hs, hn, _⟩ := i.notify_ok
      obtain ⟨i₁, h₁, h⟩ := Turn.bind_eq_ok.mp h
      obtain rfl := Except.ok.inj (hs.symm.trans h₁)
      exact ⟨s, hn, h⟩
  split at h
  · obtain ⟨s, rfl, hs⟩ := finish_ok h
    exact .inr ⟨s, rfl, hn.rests hs⟩
  · cases h
    exact .inl ⟨by simp_all, s₁, rfl, hn⟩

theorem drain_of_stopped (h : i.shell.status = .stopped) : i.drain env = pure i := by
  rw [drain]
  unfold drainWithin
  rw [if_pos (by simp [isRunning, h])]

-- A machine that is done with its first configuration is over as soon as it has started.
theorem start_of_done {m : Microstep C} (hi : i.shell.status = .notStarted)
    (hm : Microstep.initial i.machine.tree i.machine.registry .init i.state.context
      i.state.history = .ok m) (hd : m.done = true)
    (hc : (commit env i.machine.registry { i.shell with status := .running } m .init).outcome =
      .ok (s, none))
    (hs : ∀ x ∈ s.actors, ∃ a, (ActorModel.stop (C := C) env x.actor).outcome = .ok a) :
    ∃ s', (i.start env).outcome = .ok { i with state := i.state.after m, shell := s' } ∧
      s.Rests s' := by
  have hrun : (Macrostep.run _ _ i.machine.config _ _ i.state .start).outcome = _ :=
    Macrostep.run_of_started (.start hm hc)
  rw [Macrostep.loop_of_stops _ (.done (by simp [MachineState.after, hd]))] at hrun
  obtain ⟨s₁, hn, _, ho⟩ := macrostep_outcome (i := { i with shell.status := .running }) hrun
  have hs₁ : ∀ x ∈ s₁.actors, ∃ a, (ActorModel.stop (C := C) env x.actor).outcome = .ok a := by
    rw [hn.actors]
    exact hs
  obtain ⟨s₂, hsettle, hr⟩ := settle_of_done
    (i := { i with state := i.state.after m, shell := s₁ }) true
    (by simp [MachineState.after, hd]) hs₁
  refine ⟨s₂, ?_, hn.rests hr⟩
  rw [start, if_pos hi, Turn.outcome_bind, ho.trans hsettle]
  exact congrArg Turn.outcome (drain_of_stopped hr.status)

theorem macrostep_cases {trigger : Trigger} {p : Progress (Shell C A) C}
    (hp : (Macrostep.run i.machine.tree i.machine.registry i.machine.config
      (commit env i.machine.registry) i.shell i.state trigger).outcome = .ok p)
    (h : (i.macrostep env trigger).outcome = .ok i') :
    (p.state.done = false ∧ ∃ s, i' = { i with state := p.state, shell := s } ∧ p.shell.Noted s) ∨
      ∃ s, i' = { i with state := p.state, shell := s } ∧ p.shell.Rests s := by
  obtain ⟨s, hn, _, ho⟩ := macrostep_outcome hp
  have hsettle (h : (settle env { i with state := p.state, shell := s } p.changed).outcome =
      .ok i') : (p.state.done = false ∧ ∃ s, i' = { i with state := p.state, shell := s } ∧
        p.shell.Noted s) ∨
      ∃ s, i' = { i with state := p.state, shell := s } ∧ p.shell.Rests s := by
    rcases settle_cases h with ⟨hd, s', hi, hn'⟩ | ⟨s', hi, hs⟩
    · exact .inl ⟨hd, s', hi, hn.trans hn'⟩
    · exact .inr ⟨s', hi, hn.rests hs⟩
  rw [ho] at h
  dsimp only at h
  cases he : p.error with
  | none =>
    rw [he] at h
    exact hsettle h
  | some err =>
    rw [he] at h
    dsimp only at h
    split at h
    · obtain ⟨s', hi, hs⟩ := fail_ok h
      exact .inr ⟨s', hi, hn.rests hs⟩
    · exact hsettle h

theorem macrostep_becomes {trigger : Trigger} {p : Progress (Shell C A) C}
    (hp : (Macrostep.run i.machine.tree i.machine.registry i.machine.config
      (commit env i.machine.registry) i.shell i.state trigger).outcome = .ok p)
    (h : (i.macrostep env trigger).outcome = .ok i') :
    Becomes now { i with state := p.state, shell := p.shell } i' := by
  rcases macrostep_cases hp h with ⟨_, s, rfl, hn⟩ | ⟨s, rfl, hs⟩
  · exact .of_noted hn
  · exact .of_rests hs

-- An error before anything is active stops the interpreter.
theorem macrostep_halts {trigger : Trigger} {p : Progress (Shell C A) C}
    (hp : (Macrostep.run i.machine.tree i.machine.registry i.machine.config
      (commit env i.machine.registry) i.shell i.state trigger).outcome = .ok p)
    (he : p.error ≠ none) (hc : p.state.configuration = ∅)
    (h : (i.macrostep env trigger).outcome = .ok i') :
    ∃ s, i' = { i with state := p.state, shell := s } ∧ p.shell.Rests s := by
  obtain ⟨s, hn, _, ho⟩ := macrostep_outcome hp
  obtain ⟨err, he⟩ := Option.ne_none_iff_exists'.mp he
  have hf : ({ i with state := p.state, shell := s } : Interpreter C S A).isFatal = true := by
    simp [isFatal, hc]
  rw [ho, he] at h
  simp only [hf, if_true] at h
  obtain ⟨s', hi, hs⟩ := fail_ok h
  exact ⟨s', hi, hn.rests hs⟩

theorem event_becomes {v : Envelope} (hr : i.shell.status = .running)
    (h : (i.macrostep env (.event v.event)).outcome = .ok i') :
    Becomes env.now { i with shell.mailbox := v :: i.shell.mailbox } i' := by
  have ⟨p, hp, _⟩ := Turn.bind_eq_ok.mp h
  have hb : Becomes env.now _ i' := macrostep_becomes hp h
  exact ⟨hb.machine, fun hl => (Course.runs_event hl hr (Macrostep.run_ok hp)).bind
    fun _ hl => hb.course hl⟩

-- The event that is first in the mailbox is dropped or starts a macrostep.
theorem process_becomes {v : Envelope} (hr : i.shell.status = .running)
    (h : (i.process env v).outcome = .ok i') :
    Becomes env.now { i with shell.mailbox := v :: i.shell.mailbox } i' := by
  rw [process] at h
  split at h
  case h_1 =>
    split at h
    case isTrue => exact event_becomes hr h
    case isFalse =>
      cases h
      exact ⟨rfl, fun hl => ⟨_, List.suffix_cons .., hl.drop hr rfl⟩⟩
  case h_2 =>
    obtain ⟨s, hs, h⟩ := Turn.bind_eq_ok.mp h
    obtain ⟨vs, hs⟩ := (Shell.eachActor_ok hs).left.receives
    have hb : Becomes env.now { i with shell.mailbox := v :: i.shell.mailbox }
        { i with shell := { s with mailbox := v :: s.mailbox } } :=
      .of_receives ⟨hs.status, hs.scheduler, congrArg (v :: ·) hs.mailbox⟩
    exact hb.trans (event_becomes (i := { i with shell := s }) (hs.status.trans hr) h)

-- Processing the mailbox ends, or goes on with the event that is first in it.
theorem drainWithin_ok {fuel : Nat} (h : (i.drainWithin env fuel).outcome = .ok i') :
    i' = i ∧ (i.isRunning = false ∨ i.shell.mailbox = []) ∨
      ∃ n v rest i₁, fuel = n + 1 ∧ i.shell.status = .running ∧ i.shell.mailbox = v :: rest ∧
        (process env { i with shell.mailbox := rest } v).outcome = .ok i₁ ∧
        (i₁.drainWithin env n).outcome = .ok i' := by
  unfold drainWithin at h
  split at h
  case isTrue hr =>
    cases h
    exact .inl ⟨rfl, .inl (by simpa using hr)⟩
  case isFalse hr =>
    split at h
    case h_1 hm =>
      cases h
      exact .inl ⟨rfl, .inr hm⟩
    case h_2 => contradiction
    case h_3 v rest n hm =>
      have ⟨i₁, h₁, h⟩ := Turn.bind_eq_ok.mp h
      exact .inr ⟨n, v, rest, i₁, rfl, by simpa [isRunning] using hr, hm, h₁, h⟩

-- Of the delayed events that are due, the earliest comes first.
theorem deliverDueWithin_ok {fuel : Nat} (h : (i.deliverDueWithin env fuel).outcome = .ok i') :
    i' = i ∧ (i.isRunning = false ∨ i.shell.scheduler.popDue? env.now = none) ∨
      ∃ n p rest s i₁, fuel = n + 1 ∧ i.shell.status = .running ∧
        i.shell.scheduler.queue = p :: rest ∧ p.deadline ≤ env.now ∧
        (Shell.deliver env { i.shell with scheduler.queue := rest } p.target p.event).outcome =
          .ok s ∧
        (drain env { i with shell := s }).outcome = .ok i₁ ∧
        (i₁.deliverDueWithin env n).outcome = .ok i' := by
  unfold deliverDueWithin at h
  split at h
  case isTrue hr =>
    cases h
    exact .inl ⟨rfl, .inl (by simpa using hr)⟩
  case isFalse hr =>
    split at h
    case h_1 hm =>
      cases h
      exact .inl ⟨rfl, .inr hm⟩
    case h_2 => contradiction
    case h_3 due rest n hm =>
      have ⟨s, hs, h₁⟩ := Turn.bind_eq_ok.mp h
      have ⟨i₁, h₁, h₂⟩ := Turn.bind_eq_ok.mp h₁
      rw [Scheduler.popDue?] at hm
      split at hm
      case h_1 => contradiction
      case h_2 p rest hq =>
        split at hm
        case isTrue hd =>
          obtain ⟨rfl, rfl⟩ := Prod.mk.inj (Option.some.inj hm)
          exact .inr ⟨n, p, rest, s, i₁, rfl, by simpa [isRunning] using hr, hq, hd, hs, h₁, h₂⟩
        case isFalse => contradiction

-- A delayed event that is due goes to its target.
theorem deliver_becomes {p : Pending} {rest : List Pending} (hr : i.shell.status = .running)
    (hq : i.shell.scheduler.queue = p :: rest) (hd : p.deadline ≤ env.now)
    (h : (Shell.deliver env { i.shell with scheduler.queue := rest } p.target p.event).outcome =
      .ok s) : Becomes env.now i { i with shell := s } := by
  have hb : Becomes env.now i { i with
      shell.scheduler.queue := rest
      shell.mailbox :=
        i.shell.mailbox ++ if p.target = .self then [{ event := p.event }] else [] } :=
    ⟨rfl, fun hl => ⟨_, List.suffix_cons .., hl.deliver hr hq hd⟩⟩
  by_cases ht : p.target = .self
  case pos =>
    simp only [ht, if_true] at hb
    rw [ht] at h
    cases h
    exact hb
  case neg =>
    simp only [ht, if_false, List.append_nil] at hb
    exact hb.trans (.of_posted (Shell.deliver_ok h).left)

-- A running interpreter stops after its exit actions, or with the error that kept it from them.
theorem stop_cases (h : (i.stop env).outcome = .ok i') :
    i.shell.status = .stopped ∧ i' = i ∨
      i.shell.status = .notStarted ∧ i' = { i with shell.status := .stopped } ∨
      i.shell.status = .running ∧ ∃ x s s', i' = { i with state.context := x, shell := s' } ∧
        s.Rests s' ∧ (i.shell.Noted s ∨ ∃ e actions,
          (i.shell.performEach env i.machine.registry x e actions).outcome = .ok s) := by
  rw [stop] at h
  split at h
  case h_1 hs =>
    cases h
    exact .inl ⟨hs, rfl⟩
  case h_2 hn =>
    cases h
    exact .inr (.inl ⟨hn, rfl⟩)
  case h_3 hr =>
    refine .inr (.inr ⟨hr, ?_⟩)
    dsimp only at h
    split at h
    case h_1 step _ =>
      have ⟨s, hs, h⟩ := Turn.bind_eq_ok.mp h
      have ⟨s', hi, hs'⟩ := halt_ok h
      exact ⟨step.context, s, s', hi, hs', .inr ⟨_, _, hs⟩⟩
    case h_2 err _ =>
      have ⟨s, hs, hn, _⟩ := Shell.reportAll_ok [err] i.shell
      rw [Shell.reportAll_singleton] at hs
      have ⟨s₁, hs₁, h⟩ := Turn.bind_eq_ok.mp h
      obtain rfl := Except.ok.inj (hs.symm.trans hs₁)
      have ⟨s', hi, hs'⟩ := halt_ok h
      exact ⟨i.state.context, s, s', hi, hs', .inl hn⟩

theorem stop_becomes (h : (i.stop env).outcome = .ok i') : Becomes env.now i i' := by
  rcases stop_cases h with ⟨_, rfl⟩ | ⟨hn, rfl⟩ | ⟨_, x, s, s', rfl, hr, hs⟩
  · exact .refl _
  · refine ⟨rfl, fun hl => ?_⟩
    have hh : i.shell.Halts [] { i.shell with status := .stopped } :=
      ⟨rfl, (hl.fresh hn).right.left, by simp⟩
    exact ⟨_, Log.suffix_cons_append _, hl.halt hh⟩
  · have ⟨posts, hm⟩ : ∃ posts, s.mailbox = i.shell.mailbox ++ posts := by
      rcases hs with hn | ⟨_, _, hs⟩
      · exact hn.mailbox
      · exact (Shell.performEach_obeys hs).mailbox
    have ⟨vs, hh⟩ := hr.halts
    have hh : i.shell.Halts (posts ++ vs) s' := ⟨hh.status, hh.queue, by simp [hh.mailbox, hm]⟩
    exact .of_halts hh

theorem stopped_of_stop (h : (i.stop env).outcome = .ok i') : i'.shell.status = .stopped := by
  rcases stop_cases h with ⟨hs, rfl⟩ | ⟨_, rfl⟩ | ⟨_, _, _, _, rfl, hs, _⟩
  · exact hs
  · rfl
  · exact hs.status

theorem start_becomes (hn : i.shell.status = .notStarted)
    (h : (macrostep env { i with shell.status := .running } .start).outcome = .ok i') :
    Becomes env.now i i' := by
  obtain ⟨p, hp, _⟩ := Turn.bind_eq_ok.mp h
  have hb : Becomes env.now _ i' := macrostep_becomes hp h
  refine ⟨hb.machine, fun {log} hl => ?_⟩
  rcases Course.runs_start hl hn (Macrostep.run_ok hp) with ⟨hst, hsh, he⟩ | hr
  case inl =>
    have hc := (hl.fresh hn).left
    obtain ⟨s, hi, hr⟩ := macrostep_halts hp he (hst ▸ hc) h
    obtain ⟨vs, hh⟩ := hr.halts
    have hh : i.shell.Halts vs s := ⟨hh.status, hh.queue, by simpa [hsh] using hh.mailbox⟩
    rw [hi, hst]
    exact ⟨_, Log.suffix_cons_append _, hl.halt hh⟩
  case inr => exact hr.bind fun _ hl => hb.course hl

theorem resume_becomes {x : MachineState C} {c : Checkpoint C} {actions : List Planned}
    (hc : i.resumption c = .ok (x, actions)) (hd : x.done = true)
    (h : (halt env { i with
      state := x
      shell.status := .running
      shell.lastEvent := some .init }).outcome = .ok i') : Becomes env.now i i' := by
  have hb : Becomes env.now i { i with
      state := x
      shell.status := .running
      shell.lastEvent := some .init } :=
    ⟨rfl, fun hl => ⟨_, Log.suffix_cons_append _,
      hl.resume hc rfl rfl (by simp [hd, Shell.performEach]) (List.append_nil _).symm⟩⟩
  have ⟨s, hi, hr⟩ := halt_ok h
  exact hb.trans (hi ▸ .of_rests hr)

theorem resumeEach_becomes {x : MachineState C} {c : Checkpoint C} {actions : List Planned}
    (hc : i.resumption c = .ok (x, actions)) (hd : x.done = false)
    (hs : (Shell.performEach env i.machine.registry x.context .init
      { i.shell with status := .running, lastEvent := some .init } actions).outcome = .ok s) :
    Becomes env.now i { i with state := x, shell := s } :=
  have ⟨_, hm⟩ := (Shell.performEach_obeys hs).mailbox
  ⟨rfl, fun hl => ⟨_, Log.suffix_cons_append _,
    hl.resume hc rfl rfl (by simpa [hd] using hs) hm⟩⟩

-- What can be done with an interpreter without time passing.
inductive Operates (env : Env) (i : Interpreter C S A) : Interpreter C S A → Prop
  | withId (id : String) : Operates env i (i.withId id)
  | subscribe (notify : Snapshot C → List Event) : Operates env i (i.subscribe notify)
  | unsubscribe (id : Nat) : Operates env i (i.unsubscribe id)
  | onError (posts : ExecutionError → List Event) : Operates env i (i.onError posts)
  | onDone (posts : Json → List Event) : Operates env i (i.onDone posts)
  | post (e : Event) : Operates env i (i.post e)
  | start {j} : (i.start env).outcome = .ok j → Operates env i j
  | send {e j} : (i.send env e).outcome = .ok j → Operates env i j
  | poll {j} : (i.poll env).outcome = .ok j → Operates env i j
  | finishTasks {j} : (i.finishTasks).outcome = .ok j → Operates env i j
  | stop {j} : (i.stop env).outcome = .ok j → Operates env i j
  | restore {c j} : (i.restore env c).outcome = .ok (.ok j) → Operates env i j

-- A relation between an interpreter and what each of its steps makes of it, as long as it is
-- neither stopped nor restored.
structure Advances (env : Env) (P : Interpreter C S A → Interpreter C S A → Prop) : Prop where
  refl (i : Interpreter C S A) : P i i
  trans {i j k : Interpreter C S A} : P i j → P j k → P i k
  receives {i : Interpreter C S A} {vs : List Envelope} {s : Shell C A} : i.shell.Receives vs s →
    i.shell.actors.Evolves C s.actors → P i { i with shell := s }
  start {i j : Interpreter C S A} : i.shell.status = .notStarted →
    (macrostep env { i with shell.status := .running } .start).outcome = .ok j → P i j
  process {i j : Interpreter C S A} {v : Envelope} : i.shell.status = .running →
    (i.process env v).outcome = .ok j → P { i with shell.mailbox := v :: i.shell.mailbox } j
  deliver {i : Interpreter C S A} {p : Pending} {rest : List Pending} {s : Shell C A} :
    i.shell.status = .running → i.shell.scheduler.queue = p :: rest → p.deadline ≤ env.now →
    (Shell.deliver env { i.shell with scheduler.queue := rest } p.target p.event).outcome = .ok s →
    P i { i with shell := s }

-- The same for whatever is done with it.
structure Traces (env : Env) (P : Interpreter C S A → Interpreter C S A → Prop) : Prop
    extends Advances env P where
  stop {i j : Interpreter C S A} : (i.stop env).outcome = .ok j → P i j
  resume {i j : Interpreter C S A} {c : Checkpoint C} {x : MachineState C}
    {actions : List Planned} : i.resumption c = .ok (x, actions) → x.done = true →
    (halt env { i with
      state := x
      shell.status := .running
      shell.lastEvent := some .init }).outcome = .ok j → P i j
  resumeEach {i : Interpreter C S A} {c : Checkpoint C} {x : MachineState C}
    {actions : List Planned} {s : Shell C A} : i.resumption c = .ok (x, actions) →
    x.done = false → (Shell.performEach env i.machine.registry x.context .init
      { i.shell with status := .running, lastEvent := some .init } actions).outcome = .ok s →
    P i { i with state := x, shell := s }

section Operates

variable {P : Interpreter C S A → Interpreter C S A → Prop}

namespace Advances

variable (ht : Advances env P)
include ht

theorem eachActor {p : ArenaEntry A → Bool} {f : A → Turn C A}
    (hf : ∀ a b, (f a).outcome = .ok b → Acts C a b)
    (h : (i.shell.eachActor p f).outcome = .ok s) : P i { i with shell := s } := by
  have ⟨_, hr⟩ := (Shell.eachActor_ok h).left.receives
  exact ht.receives ⟨hr.status, hr.scheduler, hr.mailbox⟩ (Shell.eachActor_evolves hf h)

theorem drainWithin {fuel : Nat} (h : (i.drainWithin env fuel).outcome = .ok i') : P i i' := by
  induction fuel generalizing i with
  | zero =>
    rcases drainWithin_ok h with ⟨rfl, _⟩ | ⟨n, _, _, _, hn, _⟩
    · exact ht.refl _
    · contradiction
  | succ fuel ih =>
    rcases drainWithin_ok h with ⟨rfl, _⟩ | ⟨n, v, rest, i₁, hn, hr, hm, h₁, h⟩
    · exact ht.refl _
    · obtain rfl := Nat.succ.inj hn
      have hb := ht.process (i := { i with shell.mailbox := rest }) hr h₁
      have hi : { i with shell.mailbox := v :: rest } = i := by rw [← hm]
      exact ht.trans (hi ▸ hb) (ih h)

theorem drain (h : (i.drain env).outcome = .ok i') : P i i' := ht.drainWithin h

theorem post (i : Interpreter C S A) (e : Event) : P i (i.post e) :=
  have hr : i.shell.Receives [{ event := e }] (i.shell.queue e) := ⟨rfl, rfl, rfl⟩
  ht.receives hr (.refl _)

theorem deliverDueWithin {fuel : Nat} (h : (i.deliverDueWithin env fuel).outcome = .ok i') :
    P i i' := by
  induction fuel generalizing i with
  | zero =>
    rcases deliverDueWithin_ok h with ⟨rfl, _⟩ | ⟨n, _, _, _, _, hn, _⟩
    · exact ht.refl _
    · contradiction
  | succ fuel ih =>
    rcases deliverDueWithin_ok h with ⟨rfl, _⟩ | ⟨n, p, rest, s, i₁, hn, hr, hq, hd, hs, h₁, h⟩
    · exact ht.refl _
    · obtain rfl := Nat.succ.inj hn
      exact ht.trans (ht.trans (ht.deliver hr hq hd hs) (ht.drain h₁)) (ih h)

theorem poll (h : (i.poll env).outcome = .ok i') : P i i' := by
  rw [Interpreter.poll] at h
  split at h
  case isTrue =>
    have ⟨s, hs, h⟩ := Turn.bind_eq_ok.mp h
    have ⟨i₁, h₁, h⟩ := Turn.bind_eq_ok.mp h
    have hpoll := ht.eachActor (fun _ _ => .poll) hs
    exact ht.trans (ht.trans hpoll (ht.deliverDueWithin h₁)) (ht.drain h)
  case isFalse =>
    cases h
    exact ht.refl _

theorem operates (h : Operates env i i') : P i i' ∨ (i.stop env).outcome = .ok i' ∨
    ∃ c, (i.restore env c).outcome = .ok (.ok i') := by
  have hsame {s : Shell C A} (hst : s.status = i.shell.status)
      (hsc : s.scheduler = i.shell.scheduler) (hm : s.mailbox = i.shell.mailbox)
      (ha : s.actors = i.shell.actors) : P i { i with shell := s } :=
    have hr : i.shell.Receives [] s := ⟨hst, hsc, by simp [hm]⟩
    ht.receives hr (.of_eq ha)
  cases h with
  | withId => exact .inl (hsame rfl rfl rfl rfl)
  | subscribe => exact .inl (hsame rfl rfl rfl rfl)
  | unsubscribe => exact .inl (hsame rfl rfl rfl rfl)
  | onError => exact .inl (hsame rfl rfl rfl rfl)
  | onDone => exact .inl (hsame rfl rfl rfl rfl)
  | post => exact .inl (ht.post i _)
  | start h =>
    rw [Interpreter.start] at h
    split at h
    case isTrue hn =>
      obtain ⟨_, h₁, h⟩ := Turn.bind_eq_ok.mp h
      exact .inl (ht.trans (ht.start hn h₁) (ht.drain h))
    case isFalse =>
      cases h
      exact .inl (ht.refl _)
  | send h =>
    rw [Interpreter.send] at h
    split at h
    case isTrue => exact .inl (ht.trans (ht.post i _) (ht.drain h))
    case isFalse =>
      cases h
      exact .inl (ht.refl _)
  | poll h => exact .inl (ht.poll h)
  | finishTasks h =>
    obtain ⟨s, hs, h⟩ := Turn.bind_eq_ok.mp h
    cases h
    exact .inl (ht.eachActor (fun _ _ => .finishTasks) hs)
  | stop h => exact .inr (.inl h)
  | restore h => exact .inr (.inr ⟨_, h⟩)

end Advances

namespace Traces

variable (ht : Traces env P)
include ht

theorem restore {c : Checkpoint C} (h : (i.restore env c).outcome = .ok (.ok i')) : P i i' := by
  rw [Interpreter.restore] at h
  split at h
  case h_1 => cases h
  case h_2 hc =>
    have ⟨i₁, h₁, h⟩ := Turn.bind_eq_ok.mp h
    cases h
    rw [Interpreter.resume] at h₁
    split at h₁
    case isTrue hd => exact ht.resume hc hd h₁
    case isFalse hd =>
      have ⟨s, hs, h⟩ := Turn.bind_eq_ok.mp h₁
      exact ht.trans (ht.resumeEach hc (by simpa using hd) hs) (ht.drain h)

theorem operates (h : Operates env i i') : P i i' := by
  rcases ht.toAdvances.operates h with h | h | ⟨_, h⟩
  · exact h
  · exact ht.stop h
  · exact ht.restore h

end Traces

end Operates

theorem becomes_traces (env : Env) : Traces (C := C) (S := S) (A := A) env (Becomes env.now) where
  refl := .refl
  trans := .trans
  receives hr _ := .of_receives hr
  start := start_becomes
  process := process_becomes
  deliver := deliver_becomes
  stop := stop_becomes
  resume := resume_becomes
  resumeEach := resumeEach_becomes

theorem Operates.becomes (h : Operates env i i') : Becomes env.now i i' :=
  (becomes_traces env).operates h

-- An interpreter of `m`, on its own or a child of another one, in the course of time.
inductive Runs (m : Machine C S) : Duration → Interpreter C S A → Prop
  | new {t} : Runs m t (.new m)
  | spawned {t id} : Runs m t (.spawned m id)
  | wait {t t' j} : Runs m t j → t ≤ t' → Runs m t' j
  | operate {e j j'} : Runs m e.now j → Operates e j j' → Runs m e.now j'

theorem Runs.course (h : Runs m now i) :
    i.machine = m ∧ ∃ log, Course m now log (.resting i.state i.shell) := by
  induction h with
  | new => exact ⟨rfl, _, .new rfl rfl rfl rfl⟩
  | spawned => exact ⟨rfl, _, .new rfl rfl rfl rfl⟩
  | wait _ hn ih =>
    have ⟨hm, log, h⟩ := ih
    exact ⟨hm, log, h.wait hn⟩
  | operate _ ho ih =>
    have ⟨hm, log, h⟩ := ih
    have ⟨hm', hc⟩ := ho.becomes
    subst hm
    have ⟨log', _, h⟩ := hc h
    exact ⟨hm', log', h⟩

end Interpreter

end Statechart
