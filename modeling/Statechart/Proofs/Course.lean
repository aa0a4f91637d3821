import Statechart.Interpreter.Restore
import Statechart.Proofs.Log
import Statechart.Proofs.Planning
import Statechart.Proofs.Settle

-- The course of an interpreter: what can happen to it at its stage, and what this leads to.

namespace Statechart

namespace Shell

variable {C A : Type} {s s' : Shell C A} {vs : List Envelope}

-- Events arrive; delayed events stay as they are.
structure Receives (s : Shell C A) (vs : List Envelope) (s' : Shell C A) : Prop where
  status : s'.status = s.status
  scheduler : s'.scheduler = s.scheduler
  mailbox : s'.mailbox = s.mailbox ++ vs

structure Halts (s : Shell C A) (vs : List Envelope) (s' : Shell C A) : Prop where
  status : s'.status = .stopped
  queue : s'.scheduler.queue = []
  mailbox : s'.mailbox = s.mailbox ++ vs

theorem Posted.receives (h : s.Posted s') : ∃ vs, s.Receives vs s' := by
  obtain ⟨vs, rfl⟩ := h
  exact ⟨vs, rfl, rfl, rfl⟩

theorem Noted.receives (h : s.Noted s') : ∃ vs, s.Receives vs s' :=
  have ⟨vs, hm⟩ := h.mailbox
  ⟨vs, h.status, h.scheduler, hm⟩

end Shell

-- An interpreter rests between macrosteps, or has got to `p` in one.
inductive Stage (C A : Type)
  | resting (s : MachineState C) (shell : Shell C A)
  | stepping (p : Progress (Shell C A) C)

namespace Stage

variable {C A : Type}

def state : Stage C A → MachineState C
  | resting s _ => s
  | stepping p => p.state

def shell : Stage C A → Shell C A
  | resting _ shell => shell
  | stepping p => p.shell

-- Until the start nothing is active, and nothing but arrivals has happened.
def Fresh (log : Log C) : Stage C A → Prop
  | resting s shell => shell.status = .notStarted → s.configuration = ∅ ∧
      shell.scheduler.queue = [] ∧ ∀ x ∈ log, ∃ v, x.2 = .arrived v
  | stepping p => p.shell.status ≠ .notStarted

end Stage

section Course

variable {C S A : Type} [ActorModel C S A]

-- The microstep `step`, for `us` at `q`, comes next. Just before, `hap` happens.
inductive Plans (m : Machine C S) :
    Stage C A → List (Happening C) → Progress (Shell C A) C → List Transition → Microstep C → Prop
  | start {s shell step} : shell.status = .notStarted →
      Microstep.initial m.tree m.registry .init s.context s.history = .ok step →
      Plans m (.resting s shell) []
        { shell := { shell with status := .running }, state := s, current := .init } [] step
  | event {s shell v rest us step} : shell.status = .running → shell.mailbox = v :: rest →
      (Macrostep.selection m.tree m.registry m.config s v.event false).result = .ok us → us ≠ [] →
      Macrostep.attempt m.tree m.registry (Macrostep.opening m.tree m.registry m.config
        { shell with mailbox := rest } s v.event) us = .ok step →
      Plans m (.resting s shell) [.taken v] (Macrostep.opening m.tree m.registry m.config
        { shell with mailbox := rest } s v.event) us step
  | round {p q us step} : Macrostep.Offers m.tree m.registry m.config p q us →
      Macrostep.attempt m.tree m.registry q us = .ok step → Plans m (.stepping p) [] q us step

inductive Course (m : Machine C S) : Duration → Log C → Stage C A → Prop
  | new {now x shell} : shell.status = .notStarted → shell.actors = [] →
      shell.scheduler.queue = [] → shell.mailbox = [] →
      Course m now [] (.resting (.unstarted x) shell)
  | wait {now now' log stage} : Course m now log stage → now ≤ now' → Course m now' log stage
  | arrive {now log s shell vs shell'} : Course m now log (.resting s shell) →
      shell.Receives vs shell' → Course m now (Log.arrivals now vs ++ log) (.resting s shell')
  | drop {now log s shell v rest} : Course m now log (.resting s shell) →
      shell.status = .running → shell.mailbox = v :: rest →
      Course m now ((now, .taken v) :: log) (.resting s { shell with mailbox := rest })
  | commit {now log stage hap q us step env shell vs} : Course m now log stage →
      Plans m stage hap q us step → env.now = now →
      (Interpreter.commit env m.registry q.shell step q.current).outcome = .ok (shell, none) →
      shell.mailbox = q.shell.mailbox ++ vs →
      Course m now ((now, .committed q.current us step) :: (Log.arrivals now vs ++
        hap.map (now, ·) ++ log)) (.stepping (q.accept shell step))
  | refuse {now log stage hap q us step env shell vs err} : Course m now log stage →
      Plans m stage hap q us step → env.now = now →
      (Interpreter.commit env m.registry q.shell step q.current).outcome = .ok (shell, some err) →
      shell.mailbox = q.shell.mailbox ++ vs →
      Course m now ((now, .refused q.current us step) :: (Log.arrivals now vs ++
        hap.map (now, ·) ++ log)) (.resting { q.state with context := step.context } shell)
  | skip {now log p e rest} : Course m now log (.stepping p) →
      Macrostep.Settled m.tree m.registry m.config p → p.raised = e :: rest →
      (Macrostep.selection m.tree m.registry m.config p.state e false).result = .ok [] →
      Course m now log (.stepping (Macrostep.dequeue m.tree m.registry m.config p e rest))
  | rest {now log p} : Course m now log (.stepping p) → Course m now log (.resting p.state p.shell)
  | deliver {now log s shell p rest} : Course m now log (.resting s shell) →
      shell.status = .running → shell.scheduler.queue = p :: rest → p.deadline ≤ now →
      Course m now ((now, .delivered p shell.mailbox) :: log) (.resting s { shell with
        scheduler.queue := rest
        mailbox := shell.mailbox ++ if p.target = .self then [{ event := p.event }] else [] })
  | resume {now log s shell c s' planned actions env vs shell'} :
      Course m now log (.resting s shell) →
      ({ machine := m, state := s, shell := shell } : Interpreter C S A).resumption c =
        .ok (s', planned) → actions = (if s'.done then [] else planned) → env.now = now →
      (Shell.performEach env m.registry s'.context .init
        { shell with status := .running, lastEvent := some .init } actions).outcome = .ok shell' →
      shell'.mailbox = shell.mailbox ++ vs →
      Course m now ((now, .resumed s'.configuration actions) :: (Log.arrivals now vs ++ log))
        (.resting s' shell')
  | halt {now log s shell x vs shell'} : Course m now log (.resting s shell) →
      shell.Halts vs shell' → Course m now ((now, .halted) :: (Log.arrivals now vs ++ log))
        (.resting { s with context := x } shell')

variable {m : Machine C S} {now : Duration} {log : Log C} {stage : Stage C A}

namespace Plans

variable {hap : List (Happening C)} {q : Progress (Shell C A) C} {us : List Transition}
  {step : Microstep C} {n : NodeIndex}

omit [ActorModel C S A]

theorem started {log : Log C} (hp : Plans m stage hap q us step) (hf : stage.Fresh log) :
    q.shell.status ≠ .notStarted := by
  cases hp with
  | start => exact nofun
  | event hr => exact fun hn => absurd (hr.symm.trans hn) (by decide)
  | round ho => exact Macrostep.offers_shell ho ▸ hf

theorem state (hp : Plans m stage hap q us step) : q.state = stage.state := by
  cases hp with
  | start => rfl
  | event => rfl
  | round ho => exact Macrostep.offers_state ho

theorem scheduler (hp : Plans m stage hap q us step) :
    q.shell.scheduler = stage.shell.scheduler := by
  cases hp with
  | start => rfl
  | event => rfl
  | round ho => exact congrArg Shell.scheduler (Macrostep.offers_shell ho)

-- What happens on the way to a microstep leaves alone what is active.
theorem spared (hp : Plans m stage hap q us step) (vs : List Envelope) :
    ∀ x ∈ Log.arrivals now vs ++ hap.map (now, ·), x.2.Spares n := by
  refine List.forall_mem_append.mpr ⟨Log.arrivals_spare, ?_⟩
  cases hp with
  | event => simpa using Happening.Spares.of_nil rfl rfl
  | _ => simp

theorem idle (hp : Plans m stage hap q us step) (vs : List Envelope) :
    ∀ x ∈ Log.arrivals now vs ++ hap.map (now, ·), x.2.Idle := by
  refine List.forall_mem_append.mpr ⟨Log.arrivals_idle, ?_⟩
  cases hp with
  | event => simpa using ⟨rfl, nofun⟩
  | _ => simp

-- A microstep is the first one, or takes transitions that are enabled.
theorem taken (hp : Plans m stage hap q us step) :
    (stage.shell.status = .notStarted ∧ us = [] ∧ Microstep.initial m.tree m.registry q.current
      stage.state.context stage.state.history = .ok step) ∨
    (us ≠ [] ∧ (∃ eventless, (Macrostep.selection m.tree m.registry m.config stage.state q.current
        eventless).result = .ok us) ∧
      Microstep.take m.tree m.registry q.current stage.state.configuration stage.state.context
        stage.state.history us = .ok step) := by
  cases hp with
  | start hn hm => exact .inl ⟨hn, rfl, hm⟩
  | event _ _ hs hus ha => exact .inr ⟨hus, ⟨false, hs⟩, ha⟩
  | @round p q us step ho ha =>
    rw [Macrostep.attempt, Macrostep.offers_state ho] at ha
    cases ho with
    | always _ _ hs hus => exact .inr ⟨hus, ⟨true, hs⟩, ha⟩
    | raised _ _ hs hus => exact .inr ⟨hus, ⟨false, hs⟩, ha⟩

theorem isLegal (hp : Plans m stage hap q us step) : step.configuration.isLegal m.tree = true := by
  rcases hp.taken with ⟨_, _, hm⟩ | ⟨_, _, hm⟩
  · exact (Microstep.initial_eq_ok hm).left
  · exact (Microstep.take_eq_ok hm).right.right

-- Exiting a node cancels the delayed events that it owns.
theorem mem_cancels (hp : Plans m stage hap q us step) (hn : n ∈ step.exited) :
    .cancelOwned n ∈ step.actions := by
  rcases hp.taken with ⟨_, _, hm⟩ | ⟨_, _, hm⟩
  · obtain ⟨_, _, _, rfl⟩ := Microstep.enter_eq_ok_iff.mp hm
    contradiction
  · exact List.mem_append_left _ (List.mem_append_left _ (Microstep.mem_exitActions hm hn).left)

-- Entering a node starts the timers that are sent on its entry.
theorem mem_actions {s : Send} {d : Duration} (hs : .send s ∈ (m.tree.node n).entry)
    (hd : s.delay = some (.fixed d)) (hp : Plans m stage hap q us step) (hn : n ∈ step.entered) :
    .send (s.event.getD q.current) s.target (some d) s.id n ∈ step.actions := by
  refine List.mem_append_right _ ?_
  rcases hp.taken with ⟨_, _, hm⟩ | ⟨_, _, hm⟩
  · exact Microstep.mem_entryActions_initial hs hd hm hn
  · exact Microstep.mem_entryActions hs hd hm hn

end Plans

namespace Course

variable (A) in
-- How `x` came about at `t`, after `before`.
inductive Origin (m : Machine C S) (t : Duration) : Log C → Happening C → Prop
  | delivered {before s p rest} {shell : Shell C A} : Course m t before (.resting s shell) →
      shell.scheduler.queue = p :: rest → p.deadline ≤ t →
      Origin m t before (.delivered p shell.mailbox)
  | planned {log hap q us step vs x} {stage : Stage C A} : Course m t log stage →
      Plans m stage hap q us step →
      x = .committed q.current us step ∨ x = .refused q.current us step →
      Origin m t (Log.arrivals t vs ++ hap.map (t, ·) ++ log) x
  | idle {before x} : x.Idle → Origin m t before x

theorem fresh (h : Course m now log stage) : stage.Fresh log := by
  induction h with
  | new _ _ hq _ => exact fun _ => ⟨rfl, hq, by simp⟩
  | wait _ _ ih => exact ih
  | arrive _ hr ih =>
    intro hn
    have ⟨hc, hq, hl⟩ := ih (hr.status ▸ hn)
    refine ⟨hc, hr.scheduler ▸ hq, fun x hx => ?_⟩
    cases (List.mem_append.mp hx)
    case inl hx =>
      have ⟨v, _, hv⟩ := Log.mem_arrivals.mp hx
      exact ⟨v, hv ▸ rfl⟩
    case inr hx => exact hl x hx
  | drop _ hr _ _ => exact fun hn => absurd (hr.symm.trans hn) (by decide)
  | commit _ hp _ hc _ ih =>
    exact fun hn => hp.started ih ((Shell.performAll_obeys hc).status.symm.trans hn)
  | refuse _ hp _ hc _ ih =>
    exact fun hn => absurd ((Shell.performAll_obeys hc).status.symm.trans hn) (hp.started ih)
  | skip _ _ _ _ ih => exact ih
  | rest _ ih => exact fun hn => absurd hn ih
  | deliver _ hr _ _ _ => exact fun hn => absurd (hr.symm.trans hn) (by decide)
  | resume _ _ _ _ hp _ _ =>
    intro hn
    cases (Shell.performEach_obeys hp).status.symm.trans hn
  | halt _ hh _ => exact fun hn => absurd (hh.status.symm.trans hn) (by decide)

omit [ActorModel C S A] in
theorem resumption_ok {i : Interpreter C S A} {c : Checkpoint C} {s : MachineState C}
    {planned : List Planned} (h : i.resumption c = .ok (s, planned)) :
    i.shell.status = .notStarted ∧ s.configuration.isLegal i.machine.tree = true := by
  have ⟨hn, hs⟩ : i.shell.status = .notStarted ∧ c.state i.machine.tree = .ok s := by
    simp only [Interpreter.resumption] at h
    split at h
    case isTrue => contradiction
    case isFalse hn =>
      have ⟨s', hs, h⟩ := Microstep.bind_eq_ok.mp h
      have ⟨_, _, h⟩ := Microstep.bind_eq_ok.mp h
      cases h
      exact ⟨by simpa using hn, hs⟩
  refine ⟨hn, ?_⟩
  have ⟨_, _, hs⟩ := Microstep.bind_eq_ok.mp hs
  split at hs
  case isTrue => contradiction
  case isFalse =>
    have ⟨configuration, _, hs⟩ := Microstep.bind_eq_ok.mp hs
    split at hs
    case isTrue => contradiction
    case isFalse hl =>
      have ⟨_, _, hs⟩ := Microstep.bind_eq_ok.mp hs
      cases hs
      simpa using hl

omit [ActorModel C S A] in
theorem resume_of_resumption {i : Interpreter C S A} {c : Checkpoint C} {s : MachineState C}
    {planned : List Planned} (h : i.resumption c = .ok (s, planned)) :
    Microstep.resume i.machine.tree i.machine.registry .init s.configuration s.context =
      .ok planned := by
  simp only [Interpreter.resumption] at h
  split at h
  case isTrue => contradiction
  case isFalse =>
    obtain ⟨s', _, h⟩ := Microstep.bind_eq_ok.mp h
    obtain ⟨actions, hr, h⟩ := Microstep.bind_eq_ok.mp h
    cases h
    cases hm : Microstep.resume i.machine.tree i.machine.registry .init s.configuration
      s.context with
    | error => simp [hm, Except.mapError] at hr
    | ok => simpa [hm, Except.mapError] using hr

-- Whatever happens at `now` continues what has happened until then.
theorem until_now (h : Course m now log stage) : log.Until now := by
  have hadd {now : Duration} {log : Log C} {x : Happening C} (log' : Log C) (h : log.Until now)
      (hl : ∀ y ∈ log', y.1 = now) : Log.Until now ((now, x) :: (log' ++ log)) :=
    h.append ((now, x) :: log') (List.forall_mem_cons.mpr ⟨rfl, hl⟩)
  have hmap {now : Duration} {vs : List Envelope} (hap : List (Happening C)) :
      ∀ y ∈ Log.arrivals now vs ++ hap.map (now, ·), y.1 = now := by
    simp [or_imp, forall_and]
  induction h with
  | new => exact ⟨.nil, nofun⟩
  | wait _ hn ih => exact ⟨ih.ordered, fun hx => Nat.le_trans (ih.past hx) hn⟩
  | arrive _ _ ih => exact ih.append _ (by simp)
  | drop _ _ _ ih => exact hadd [] ih (by simp)
  | commit _ _ _ _ _ ih => exact hadd _ ih (hmap _)
  | refuse _ _ _ _ _ ih => exact hadd _ ih (hmap _)
  | skip _ _ _ _ ih => exact ih
  | rest _ ih => exact ih
  | deliver _ _ _ _ ih => exact hadd [] ih (by simp)
  | resume _ _ _ _ _ _ ih => exact hadd _ ih (by simp)
  | halt _ _ ih => exact hadd _ ih (by simp)

theorem origin {t : Duration} {x : Happening C} {before : Log C} (h : Course m now log stage)
    (hx : (t, x) :: before <:+ log) : Origin A m t before x := by
  have hpast {now : Duration} {log : Log C} {y : Happening C} (log' : Log C)
      (hx : (t, x) :: before <:+ (now, y) :: (log' ++ log)) (hy : Origin A m now (log' ++ log) y)
      (hl : ∀ z ∈ log', z.2.Idle) (ih : (t, x) :: before <:+ log → Origin A m t before x) :
      Origin A m t before x := by
    rcases Log.suffix_cons_cases hx with ⟨he, rfl⟩ | hx | hx
    · cases he
      exact hy
    · exact .idle (hl _ hx)
    · exact ih hx
  induction h with
  | new => simp at hx
  | wait _ _ ih => exact ih hx
  | arrive _ _ ih =>
    cases (Log.suffix_append_cases hx)
    case inl hx => exact .idle (Log.arrivals_idle _ hx)
    case inr hx => exact ih hx
  | drop _ _ _ ih => exact hpast [] hx (.idle ⟨rfl, nofun⟩) (by simp) ih
  | commit hc hp _ _ _ ih => exact hpast _ hx (.planned hc hp (.inl rfl)) (hp.idle _) ih
  | refuse hc hp _ _ _ ih => exact hpast _ hx (.planned hc hp (.inr rfl)) (hp.idle _) ih
  | skip _ _ _ _ ih => exact ih hx
  | rest _ ih => exact ih hx
  | deliver hc _ hq hd ih => exact hpast [] hx (.delivered hc hq hd) (by simp) ih
  | resume _ _ _ _ _ _ ih => exact hpast _ hx (.idle ⟨rfl, nofun⟩) Log.arrivals_idle ih
  | halt _ _ ih => exact hpast _ hx (.idle ⟨rfl, nofun⟩) Log.arrivals_idle ih

-- Nothing is active, or what can be active together.
theorem legal (h : Course m now log stage) :
    stage.state.configuration = ∅ ∨ stage.state.configuration.isLegal m.tree = true := by
  induction h with
  | new => exact .inl rfl
  | wait _ _ ih => exact ih
  | arrive _ _ ih => exact ih
  | drop _ _ _ ih => exact ih
  | commit _ hp _ _ _ _ => exact .inr hp.isLegal
  | refuse _ hp _ _ _ ih =>
    exact hp.state ▸ ih
  | skip _ _ _ _ ih => exact ih
  | rest _ ih => exact ih
  | deliver _ _ _ _ ih => exact ih
  | resume _ hc =>
    have ⟨_, hl⟩ := resumption_ok hc
    exact .inr hl
  | halt _ _ ih => exact ih

theorem empty_of_notStarted (h : Course m now log stage)
    (hn : stage.shell.status = .notStarted) : stage.state.configuration = ∅ := by
  have hf := h.fresh
  cases stage with
  | resting s shell => exact (hf hn).left
  | stepping p => exact absurd hn hf

theorem legal_of_selection {e : Event} {eventless : Bool} {us : List Transition}
    (h : Course m now log stage) (hus : us ≠ [])
    (hs : (Macrostep.selection m.tree m.registry m.config stage.state e eventless).result =
      .ok us) : stage.state.configuration.isLegal m.tree = true :=
  h.legal.resolve_left (Macrostep.ne_empty_of_selection hs hus)

-- What is active after a microstep was entered by it, or was active before and not exited.
theorem mem_configuration {hap : List (Happening C)} {q : Progress (Shell C A) C}
    {us : List Transition} {step : Microstep C} {n : NodeIndex} (wf : m.tree.WellFormed)
    (h : Course m now log stage) (hp : Plans m stage hap q us step) :
    n ∈ step.configuration ↔
      n ∈ step.entered ∨ n ∈ stage.state.configuration ∧ n ∉ step.exited := by
  rcases hp.taken with ⟨hn, _, hm⟩ | ⟨hus, ⟨_, hs⟩, hm⟩
  · have ⟨hmem, _⟩ := Microstep.mem_configuration_initial (n := n) wf hm
    simp [hmem, h.empty_of_notStarted hn]
  · have hc := (Configuration.isLegal_iff wf).mp (h.legal_of_selection hus hs)
    exact Microstep.mem_configuration wf hc hm

end Course

end Course

end Statechart
