import Statechart.Machine
import Statechart.Proofs.Invariant
import Statechart.Proofs.Orthogonal

-- What becomes of a machine that is started and then given one event after the other.

namespace Statechart

namespace Machine

variable {C S : Type}

def play (m : Machine C S) (es : List Event) : Turn C (MachineStep C) := do
  let s ← m.initialState
  es.foldlM (fun s e => m.transition s.state e) s

-- Playing `es` runs a macrostep from `s` for `trigger`.
inductive Performs (m : Machine C S) (es : List Event) : MachineState C → Trigger → Prop
  | start : Performs m es (.unstarted m.context) .start
  | event {before e step} : before ++ [e] <+: es → (m.play before).outcome = .ok step →
      step.state.done = false → Performs m es step.state (.event e)

-- That macrostep comes to take `us` at `q`.
def Attempts (m : Machine C S) (s : MachineState C) (trigger : Trigger)
    (q : Progress (List Planned) C) (us : List Transition) : Prop :=
  Macrostep.Attempts m.tree m.registry m.config noteActions [] s trigger q us

variable {m : Machine C S} {es : List Event} {e : Event} {k : Crash} {s : MachineState C}
  {step : MachineStep C} {trigger : Trigger} {us : List Transition}
  {q : Progress (List Planned) C}

theorem play_nil : m.play [] = m.initialState := by
  simp [play]

theorem play_append : m.play (es ++ [e]) = m.play es >>= fun s => m.transition s.state e := by
  simp [play]

theorem transition_of_running (h : s.done = false) : m.transition s e = m.run s (.event e) := by
  simp [transition, h]

theorem transition_of_done (h : s.done = true) : m.transition s e = pure { state := s } := by
  simp [transition, h]

theorem run_outcome : (m.run s trigger).outcome =
    (Macrostep.run m.tree m.registry m.config noteActions [] s trigger).outcome.map fun p =>
      { state := p.state, actions := p.shell, error := p.error, changed := p.changed } := by
  simp [run]

theorem run_crash_iff : (m.run s trigger).outcome = .error k ↔
    (Macrostep.run m.tree m.registry m.config noteActions [] s trigger).outcome = .error k := by
  rw [run_outcome]
  cases (Macrostep.run m.tree m.registry m.config noteActions [] s trigger).outcome <;>
    simp [Except.map]

theorem run_eq_ok {step : MachineStep C} (h : (m.run s trigger).outcome = .ok step) :
    ∃ p, (Macrostep.run m.tree m.registry m.config noteActions [] s trigger).outcome = .ok p ∧
      p.state = step.state ∧ p.shell = step.actions := by
  rw [run_outcome] at h
  cases hp : (Macrostep.run m.tree m.registry m.config noteActions [] s trigger).outcome with
  | error => simp [hp, Except.map] at h
  | ok p =>
    rw [hp] at h
    cases h
    exact ⟨p, rfl, rfl, rfl⟩

theorem Performs.append (h : m.Performs es s trigger) : m.Performs (es ++ [e]) s trigger := by
  cases h with
  | start => exact .start
  | event hp hs hd => exact .event (hp.trans (List.prefix_append ..)) hs hd

theorem Performs.of_append (h : m.Performs (es ++ [e]) s trigger) : m.Performs es s trigger ∨
    ∃ step, (m.play es).outcome = .ok step ∧ step.state.done = false ∧ s = step.state ∧
      trigger = .event e := by
  cases h with
  | start => exact .inl .start
  | @event before e' step hp hs hd =>
    cases (List.prefix_concat_iff.mp hp)
    case inl hp =>
      have ⟨hb, he⟩ := List.append_inj' hp rfl
      obtain rfl := hb
      obtain rfl := List.singleton_inj.mp he
      exact .inr ⟨step, hs, hd, rfl, rfl⟩
    case inr hp => exact .inl (.event hp hs hd)

-- A play breaks off where one of its macrosteps does.
theorem play_crash_iff_run : (m.play es).outcome = .error k ↔
    ∃ s trigger, m.Performs es s trigger ∧ (m.run s trigger).outcome = .error k := by
  induction es using List.reverseRecOn with
  | nil =>
    rw [play_nil]
    constructor
    case mp => exact fun h => ⟨_, _, .start, h⟩
    case mpr =>
      rintro ⟨s, trigger, hp, h⟩
      cases hp with
      | start => exact h
      | event hp _ _ => simp at hp
  | append_singleton es e ih =>
    rw [play_append, Turn.outcome_bind]
    constructor
    case mp =>
      intro h
      match hs : (m.play es).outcome with
      | .error k' =>
        rw [hs] at h
        obtain rfl : k' = k := by simpa [Except.bind] using h
        have ⟨s, trigger, hp, h⟩ := ih.mp hs
        exact ⟨s, trigger, hp.append, h⟩
      | .ok step =>
        rw [hs] at h
        change (m.transition step.state e).outcome = .error k at h
        cases hd : step.state.done
        case true => simp [transition_of_done hd] at h
        case false =>
          rw [transition_of_running hd] at h
          exact ⟨_, _, .event (List.prefix_refl _) hs hd, h⟩
    case mpr =>
      intro ⟨s, trigger, hp, h⟩
      cases hp.of_append
      case inl hp =>
        rw [ih.mpr ⟨s, trigger, hp, h⟩]
        rfl
      case inr he =>
        obtain ⟨step, hs, hd, rfl, rfl⟩ := he
        rw [hs]
        change (m.transition step.state e).outcome = .error k
        rw [transition_of_running hd, h]

theorem breaks_iff : Macrostep.Breaks m.tree m.registry noteActions q us k ↔
    Macrostep.attempt m.tree m.registry q us = .error .illegal ∧ k = .illegalConfiguration := by
  constructor
  case mp =>
    intro h
    cases h with
    | illegal h => exact ⟨h, rfl⟩
    | commit _ h => contradiction
  case mpr =>
    rintro ⟨h, rfl⟩
    exact .illegal h

theorem run_crash_iff_breaks (wf : m.tree.WellFormed) : (m.run s trigger).outcome = .error k ↔
    ∃ q us, m.Attempts s trigger q us ∧
      Macrostep.Breaks m.tree m.registry noteActions q us k := by
  rw [run_crash_iff]
  cases trigger with
  | event e => exact Macrostep.run_event_crash_iff
  | start =>
    rw [Macrostep.run_start_crash_iff]
    constructor
    case mp =>
      rintro (⟨hi, _⟩ | ⟨_, _, hc⟩ | h)
      · exact absurd hi (Microstep.initial_ne_illegal wf)
      · contradiction
      · exact h
    case mpr => exact fun h => .inr (.inr h)

-- What every macrostep keeps holds throughout.
theorem play_preserves {I : MachineState C → Prop} (h₀ : I (.unstarted m.context))
    (hrun : ∀ s trigger p, I s → s.done = false → (trigger = .start → s = .unstarted m.context) →
      (Macrostep.run m.tree m.registry m.config noteActions [] s trigger).outcome = .ok p →
        I p.state)
    (h : (m.play es).outcome = .ok step) : I step.state := by
  have hrun {s trigger step} (hs : I s) (hd : s.done = false)
      (ht : trigger = .start → s = .unstarted m.context)
      (h : (m.run s trigger).outcome = .ok step) : I step.state := by
    obtain ⟨p, hp, he, _⟩ := run_eq_ok h
    exact he ▸ hrun s trigger p hs hd ht hp
  induction es using List.reverseRecOn generalizing step with
  | nil => exact hrun h₀ rfl (fun _ => rfl) (play_nil ▸ h)
  | append_singleton es e ih =>
    rw [play_append, Turn.outcome_bind] at h
    match hs : (m.play es).outcome with
    | .error _ =>
      rw [hs] at h
      contradiction
    | .ok step' =>
      rw [hs] at h
      change (m.transition step'.state e).outcome = .ok step at h
      cases hd : step'.state.done
      case true =>
        have hst := ih hs
        rw [transition_of_done hd] at h
        cases h
        exact hst
      case false =>
        rw [transition_of_running hd] at h
        exact hrun (ih hs) hd (fun he => by contradiction) h

theorem play_steady (wf : m.tree.WellFormed) (h : (m.play es).outcome = .ok step) :
    step.state.Steady m.tree :=
  play_preserves ⟨.inl rfl, History.empty_within, History.empty_joint⟩
    (fun _ _ _ hs _ _ hp => Macrostep.run_steady wf hs hp) h

theorem Performs.steady (wf : m.tree.WellFormed) (h : m.Performs es s trigger) :
    s.Steady m.tree := by
  cases h with
  | start => exact ⟨.inl rfl, History.empty_within, History.empty_joint⟩
  | event _ hs _ => exact play_steady wf hs

theorem play_crash_iff_attempts (wf : m.tree.WellFormed) : (m.play es).outcome = .error k ↔
    k = .illegalConfiguration ∧ ∃ s trigger q us, m.Performs es s trigger ∧
      m.Attempts s trigger q us ∧
      (∃ p, Microstep.leave m.tree m.registry q.current q.state.configuration q.state.context us =
        .ok p) ∧
      ∃ u ∈ us, ¬ m.tree.Compatible (m.tree.Concrete (Microstep.historyAfter m.tree
        q.state.configuration q.state.history us) u.targets) := by
  rw [play_crash_iff_run]
  constructor
  case mp =>
    intro ⟨s, trigger, hp, h⟩
    have ⟨q, us, ha, hb⟩ := (run_crash_iff_breaks wf).mp h
    have ⟨hi, hk⟩ := breaks_iff.mp hb
    have ⟨hq, _, hs⟩ := Macrostep.attempts_sound wf (hp.steady wf) ha
    exact ⟨hk, s, trigger, q, us, hp, ha, (Macrostep.attempt_eq_illegal wf hq hs).mp hi⟩
  case mpr =>
    intro ⟨hk, s, trigger, q, us, hp, ha, hu⟩
    have ⟨hq, _, hs⟩ := Macrostep.attempts_sound wf (hp.steady wf) ha
    have hi := (Macrostep.attempt_eq_illegal wf hq hs).mpr hu
    exact ⟨s, trigger, hp, (run_crash_iff_breaks wf).mpr ⟨q, us, ha, breaks_iff.mpr ⟨hi, hk⟩⟩⟩

-- A machine breaks off exactly if it comes to take a transition that targets by itself, with its
-- history nodes standing for what is recorded by then, nodes that cannot be active together.
theorem play_crash_iff {machineId : String} {root : Definition.State}
    (hb : root.build machineId = .ok m.tree) : (m.play es).outcome = .error k ↔
      k = .illegalConfiguration ∧ ∃ s trigger q us, m.Performs es s trigger ∧
        m.Attempts s trigger q us ∧
        (∃ p, Microstep.leave m.tree m.registry q.current q.state.configuration q.state.context us =
          .ok p) ∧
        ∃ u ∈ us, ¬ m.tree.Compatible (m.tree.Concrete (Microstep.historyAfter m.tree
          q.state.configuration q.state.history us) u.targets) :=
  play_crash_iff_attempts (Definition.State.build_wellFormed hb)

-- With the rules on histories in addition, no definition that builds lets a machine break off.
theorem play_never_crashes {machineId : String} {root : Definition.State}
    (hb : root.build machineId = .ok m.tree) (ht : m.tree.HistoriesApart) :
    (m.play es).outcome ≠ .error k := by
  have wf := Definition.State.build_wellFormed hb
  intro h
  have ⟨_, s, trigger, q, us, hp, ha, _, u, hu, hK⟩ := (play_crash_iff_attempts wf).mp h
  have ⟨hq, _, hs⟩ := Macrostep.attempts_sound wf (hp.steady wf) ha
  have hc := (Configuration.isLegal_iff wf).mp hq.legal
  have hsel := select_selected wf hc hs
  exact hK (Tree.compatible_concrete wf ht (Microstep.historyAfter_within wf hc hq.within)
    (Microstep.historyAfter_joint wf hc hq.joint) (hsel.declared hu))

def playerMachine : Machine Unit Unit := { tree := playerTree, registry := {}, context := () }

-- The player starts switched off.
theorem player_start : ∃ step, (playerMachine.play []).outcome = .ok step ∧
    step.state.configuration = .ofList [0, 1] ∧ step.state.history = ∅ ∧
    step.state.done = false := by
  have ⟨i, hm, hc, hd, hr⟩ : ∃ i,
      Microstep.initial playerMachine.tree playerMachine.registry .init () ∅ = .ok i ∧
        i.configuration = .ofList [0, 1] ∧ i.done = false ∧ i.raised = [] :=
    Microstep.exists_eq_ok (by decide +kernel)
  have hh := (Microstep.initial_eq_ok hm).right
  have hsel : (select playerMachine.tree playerMachine.registry .treatAsFalse i.configuration ()
      .init true).result = .ok [] := by
    rw [hc]
    exact Evaluation.eq_ok_of_toOption (by decide +kernel)
  let p : Progress (List Planned) Unit :=
    { shell := [], state := .unstarted (), current := .init : Progress _ _ }.accept i.actions i
  have hs : Macrostep.Settled playerMachine.tree playerMachine.registry playerMachine.config p :=
    ⟨hd, show 1 < 1000 by decide, hsel⟩
  have hq := Macrostep.loop_of_stops noteActions (.resting hs (by simp [p, Progress.accept, hr]))
  have hrun : (Macrostep.run _ _ _ noteActions [] (.unstarted ()) .start).outcome = _ :=
    Macrostep.run_start_of_initial playerMachine.config hm rfl
  refine ⟨_, by rw [play_nil, initialState, run_outcome]; exact congrArg _ (hrun.trans hq), ?_⟩
  exact ⟨hc, hh, hd⟩

-- Peeking comes to enter both pictures, since nothing is recorded for the screen.
theorem player_peek : ∃ s trigger q us, playerMachine.Performs [⟨"PEEK", .null⟩] s trigger ∧
    playerMachine.Attempts s trigger q us ∧
    (∃ p, Microstep.leave playerMachine.tree playerMachine.registry q.current
      q.state.configuration q.state.context us = .ok p) ∧
    ∃ u ∈ us, ¬ playerMachine.tree.Compatible (playerMachine.tree.Concrete
      (Microstep.historyAfter playerMachine.tree q.state.configuration q.state.history us)
      u.targets) := by
  have ⟨step, hs, hc, hh, hd⟩ := player_start
  have hsel : (select playerMachine.tree playerMachine.registry .treatAsFalse
      step.state.configuration () ⟨"PEEK", .null⟩ false).result =
        .ok ((playerTree.node 1).transitions.drop 1) := by
    rw [hc]
    exact Evaluation.eq_ok_of_toOption (by decide +kernel)
  refine ⟨_, _, _, _, .event (List.prefix_refl _) hs hd, .first hsel (by decide +kernel), ?_, ?_⟩
  case refine_1 =>
    have hp : (Microstep.leave playerMachine.tree playerMachine.registry ⟨"PEEK", .null⟩
      step.state.configuration () ((playerTree.node 1).transitions.drop 1)).isOk = true := by
        rw [hc]
        decide +kernel
    change ∃ p, Microstep.leave _ _ _ step.state.configuration () _ = .ok p
    match Microstep.leave playerMachine.tree playerMachine.registry ⟨"PEEK", .null⟩
      step.state.configuration () ((playerTree.node 1).transitions.drop 1), hp with
    | .ok p, _ => exact ⟨p, rfl⟩
  case refine_2 =>
    change ∃ u ∈ (playerTree.node 1).transitions.drop 1,
      ¬ playerMachine.tree.Compatible (playerMachine.tree.Concrete
        (Microstep.historyAfter _ step.state.configuration step.state.history _) u.targets)
    rw [hc, hh]
    have ⟨u, hu, hx⟩ : ∃ u ∈ (playerTree.node 1).transitions.drop 1, u.targets = [8] := by
      decide +kernel
    refine ⟨u, hu, fun hK => ?_⟩
    rw [hx] at hK
    have hn := hK 7 (by decide +kernel) 9 (by decide +kernel) 10 (by decide +kernel)
      9 (Tree.mem_concrete.mpr (by decide +kernel)) Tree.self_mem_path
      10 (Tree.mem_concrete.mpr (by decide +kernel)) Tree.self_mem_path
    contradiction

theorem play_crash_iff_player :
    (playerMachine.play [⟨"PEEK", .null⟩]).outcome = .error .illegalConfiguration :=
  (play_crash_iff (m := playerMachine) player_build).mpr ⟨rfl, player_peek⟩

-- A definition that builds can lead to nodes that cannot be active together.
theorem exists_play_crash : ¬ ∀ (root : Definition.State) (machineId : String)
    (m : Machine Unit Unit) (es : List Event), root.build machineId = .ok m.tree →
      (m.play es).outcome ≠ .error .illegalConfiguration := by
  intro h
  have wf := Definition.State.build_wellFormed player_build
  exact h player "m" playerMachine [⟨"PEEK", .null⟩] player_build
    ((play_crash_iff_attempts (m := playerMachine) wf).mpr ⟨rfl, player_peek⟩)

end Machine

end Statechart
