import Statechart.Proofs.Operations
import Statechart.Proofs.Play
import Statechart.Proofs.Simulation
import Statechart.Proofs.Trace

-- What an interpreter does, with its trace, and what its machine plans by itself instead.

namespace Statechart

variable {C S A : Type} [ActorModel C S A] (env : Env)

namespace Interpreter

-- Carries out the plan of a microstep as `commit` does.
def commitTracing (r : Registry C S) : Commit (Traced C A) C := fun s m e =>
  Shell.performAllTracing env r m.context e m.actions s

def macrostepTracing (i : Interpreter C S A) (trigger : Trigger) :
    Turn C (Interpreter C S A × Trace C A) := do
  let m := i.machine
  let p ← Macrostep.run m.tree m.registry m.config (commitTracing env m.registry) (i.shell, {})
    i.state trigger
  let j ← i.conclude env trigger (p.map Prod.fst)
  pure (j, p.shell.2)

-- Only exit actions are performed.
def stopTracing (i : Interpreter C S A) : Turn C (Interpreter C S A × Trace C A) :=
  let m := i.machine
  match i.shell.status, Microstep.exitAll m.tree m.registry .stop i.state.configuration
      i.state.context i.state.history with
  | .running, .ok step => do
    let (s, t) ← Shell.performEachTracing env m.registry step.context .stop (i.shell, {})
      step.actions
    let j ← halt env { i with state.context := step.context, shell := s }
    pure (j, t)
  | _, _ => (·, {}) <$> i.stop env

-- What a macrostep performs.
def record (i : Interpreter C S A) (trigger : Trigger) : Except Crash Record :=
  (i.macrostepTracing env trigger).outcome.map fun y => y.2.record

section Forget

theorem commitTracing_forget (env : Env) (r : Registry C S) (s : Traced C A) (m : Microstep C)
    (e : Event) : (fun y => (y.1.1, y.2)) <$> commitTracing env r s m e = commit env r s.1 m e :=
  Shell.performAllTracing_forget s m.actions

theorem macrostepTracing_forget (env : Env) (i : Interpreter C S A) (trigger : Trigger) :
    Prod.fst <$> i.macrostepTracing env trigger = i.macrostep env trigger := by
  rw [macrostepTracing, macrostep,
    ← Macrostep.run_map (commitTracing_forget env i.machine.registry) (i.shell, {})]
  simp only [map_bind, map_pure, bind_map_left]
  refine bind_congr fun p => ?_
  exact bind_pure _

theorem stopTracing_forget (env : Env) (i : Interpreter C S A) :
    Prod.fst <$> i.stopTracing env = i.stop env := by
  rw [stopTracing]
  split
  case h_1 step hs hx =>
    simp only [stop, hs, hx, map_bind, map_pure, ← Shell.performEachTracing_forget (i.shell, {}),
      bind_map_left]
    refine bind_congr fun s => ?_
    exact bind_pure _
  case h_2 => exact (comp_map ..).symm.trans (id_map _)

end Forget

variable {env} {i j : Interpreter C S A} {trigger : Trigger} {t : Trace C A}

theorem exists_macrostepTracing (h : (i.macrostep env trigger).outcome = .ok j) :
    ∃ t, (i.macrostepTracing env trigger).outcome = .ok (j, t) := by
  rw [← macrostepTracing_forget] at h
  obtain ⟨⟨_, t⟩, ht, rfl⟩ := Turn.map_eq_ok.mp h
  exact ⟨t, ht⟩

theorem exists_stopTracing (h : (i.stop env).outcome = .ok j) :
    ∃ t, (i.stopTracing env).outcome = .ok (j, t) := by
  rw [← stopTracing_forget] at h
  obtain ⟨⟨_, t⟩, ht, rfl⟩ := Turn.map_eq_ok.mp h
  exact ⟨t, ht⟩

theorem macrostep_of_tracing (h : (i.macrostepTracing env trigger).outcome = .ok (j, t)) :
    (i.macrostep env trigger).outcome = .ok j := by
  rw [← macrostepTracing_forget]
  exact Turn.map_eq_ok.mpr ⟨_, h, rfl⟩

-- The microsteps of a macrostep, with the trace and without it.
theorem exists_run_of_tracing (h : (i.macrostepTracing env trigger).outcome = .ok (j, t)) :
    ∃ p : Progress (Traced C A) C, p.shell.2 = t ∧
      (Macrostep.run i.machine.tree i.machine.registry i.machine.config
        (commitTracing env i.machine.registry) (i.shell, {}) i.state trigger).outcome = .ok p ∧
      (Macrostep.run i.machine.tree i.machine.registry i.machine.config
        (commit env i.machine.registry) i.shell i.state trigger).outcome =
          .ok (p.map Prod.fst) := by
  obtain ⟨p, hp, h⟩ := Turn.bind_eq_ok.mp h
  obtain ⟨_, _, h⟩ := Turn.bind_eq_ok.mp h
  refine ⟨p, congrArg Prod.snd (Except.ok.inj h), hp, ?_⟩
  rw [← Macrostep.run_map (commitTracing_forget env i.machine.registry) (i.shell, {})]
  exact Turn.map_eq_ok.mpr ⟨p, hp, rfl⟩

-- A macrostep performs what its trace says. After that the interpreter goes on, or it halts.
theorem macrostepTracing_cases (h : (i.macrostepTracing env trigger).outcome = .ok (j, t)) :
    j.machine = i.machine ∧ ∃ s,
      Relation.ReflTransGen (Shell.Proceeds i.machine.registry) (i.shell, {}) (s, t) ∧
      (j.state.done = false ∧ s.Noted j.shell ∨ s.Rests j.shell) := by
  have hj := macrostep_of_tracing h
  obtain ⟨p, rfl, hp, hrun⟩ := exists_run_of_tracing h
  have hproceeds : Relation.ReflTransGen (Shell.Proceeds i.machine.registry) (i.shell, {})
      p.shell :=
    Macrostep.shell_of_run
      (I := Relation.ReflTransGen (Shell.Proceeds i.machine.registry) (i.shell, {}))
      (fun _ _ _ _ hs h => hs.trans (Shell.performAllTracing_proceeds h))
      (fun _ _ _ _ _ hs h => hs.trans (Shell.performAllTracing_proceeds h)) .refl hp
  rcases macrostep_cases hrun hj with ⟨hd, s, rfl, hn⟩ | ⟨s, rfl, hr⟩
  · exact ⟨rfl, p.shell.1, hproceeds, .inl ⟨hd, hn⟩⟩
  · exact ⟨rfl, p.shell.1, hproceeds, .inr hr⟩

theorem macrostepTracing_follows (h : (i.macrostepTracing env trigger).outcome = .ok (j, t)) :
    j.machine = i.machine ∧
      (j.shell.status = .stopped ∨ j.state.done = false ∧ i.shell.Follows t.record j.shell) := by
  obtain ⟨hm, s, hp, ⟨hd, hn⟩ | hr⟩ := macrostepTracing_cases h
  · exact ⟨hm, .inr ⟨hd, (Shell.performs_of_proceeds hp).follows.noted hn⟩⟩
  · exact ⟨hm, .inl hr.status⟩

-- An interpreter that is stopped performs its exit actions, if it is running.
theorem stopTracing_cases (h : (i.stopTracing env).outcome = .ok (j, t)) :
    i.shell.status = .stopped ∧ j = i ∧ t = {} ∨
      i.shell.status = .notStarted ∧ j = { i with shell.status := .stopped } ∧ t = {} ∨
      i.shell.status = .running ∧ j.machine = i.machine ∧ ∃ s,
        Relation.ReflTransGen (Shell.Proceeds i.machine.registry) (i.shell, {}) (s, t) ∧
        s.Rests j.shell := by
  rw [stopTracing] at h
  split at h
  case h_1 step hs hx =>
    obtain ⟨⟨s, t'⟩, hp, h⟩ := Turn.bind_eq_ok.mp h
    obtain ⟨j', hh, h⟩ := Turn.bind_eq_ok.mp h
    cases h
    obtain ⟨s', rfl, hr⟩ := halt_ok hh
    exact .inr (.inr ⟨hs, rfl, s, Shell.performEachTracing_proceeds hp, hr⟩)
  case h_2 hno =>
    obtain ⟨j', hstop, hj⟩ := Turn.map_eq_ok.mp h
    obtain ⟨rfl, rfl⟩ := Prod.mk.inj hj
    rw [stop] at hstop
    split at hstop
    case h_1 hs =>
      cases hstop
      exact .inl ⟨hs, rfl, rfl⟩
    case h_2 hs =>
      cases hstop
      exact .inr (.inl ⟨hs, rfl, rfl⟩)
    case h_3 hs =>
      dsimp only at hstop
      split at hstop
      case h_1 step hx => exact (hno step hs hx).elim
      case h_2 err _ =>
        obtain ⟨s, hreport, hhalt⟩ := Turn.bind_eq_ok.mp hstop
        obtain ⟨s₁, h₁, hn, _⟩ := Shell.reportAll_ok [err] i.shell
        rw [Shell.reportAll_singleton] at h₁
        obtain rfl := Except.ok.inj (h₁.symm.trans hreport)
        obtain ⟨s', rfl, hr⟩ := halt_ok hhalt
        exact .inr (.inr ⟨hs, rfl, s₁, .single (.note hn), hr⟩)

theorem stopped_of_stopTracing (h : (i.stopTracing env).outcome = .ok (j, t)) :
    j.machine = i.machine ∧ j.shell.status = .stopped := by
  rcases stopTracing_cases h with ⟨hs, rfl, _⟩ | ⟨_, rfl, _⟩ | ⟨_, hm, _, _, hr⟩
  · exact ⟨rfl, hs⟩
  · exact ⟨rfl, rfl⟩
  · exact ⟨hm, hr.status⟩

-- As long as nothing fails, what is performed is what was planned.
theorem commitTracing_simulates {r : Registry C S} :
    Macrostep.Simulates (fun s actions => s.2.record.actions = actions)
      (fun s => ¬ s.2.record.Flawless) (commitTracing (C := C) (A := A) env r)
      Machine.noteActions where
  accepts {n _ m _ n'} hR h := by
    obtain ⟨done, hd, hok, _⟩ := Shell.performAllTracing_record h
    refine ⟨_, ?_, rfl⟩
    rw [hd, hok rfl, Record.actions_append, Record.actions_of_done, hR]
  refuses _ h := by
    obtain ⟨done, hd, _, hbad⟩ := Shell.performAllTracing_record h
    exact .inl fun hall => hbad (by simp) fun x hx => hall x (by simp [hd, hx])

-- If nothing fails, the machine would have done the same by itself.
theorem macrostepTracing_run (h : (i.macrostepTracing env trigger).outcome = .ok (j, t))
    (hall : t.record.Flawless) : ∃ step, (i.machine.run i.state trigger).outcome = .ok step ∧
      step.state = j.state ∧ step.actions = t.record.actions := by
  have hj := macrostep_of_tracing h
  obtain ⟨p, rfl, hp, hrun⟩ := exists_run_of_tracing h
  have hstate : p.state = j.state := by
    rcases macrostep_cases hrun hj with ⟨_, _, rfl, _⟩ | ⟨_, rfl, _⟩ <;> rfl
  obtain ⟨actions, ha, hpure⟩ :=
    (Macrostep.run_matches commitTracing_simulates rfl hp).resolve_left (not_not_intro hall)
  obtain rfl := ha
  refine ⟨{
    state := p.state
    actions := p.shell.2.record.actions
    error := p.error
    changed := p.changed }, ?_, hstate, rfl⟩
  rw [Machine.run_outcome]
  exact congrArg _ hpure

-- What a microstep plans is performed if nothing fails.
theorem macrostepTracing_of_reacts (env : Env) {m : Microstep C} {x : MachineState C}
    {s : Shell C A}
    (h : Macrostep.Reacts i.machine.tree i.machine.registry i.machine.config i.state trigger m x)
    (hc : (commit env i.machine.registry i.shell m trigger.toEvent).outcome = .ok (s, none)) :
    ∃ s' t, (i.macrostepTracing env trigger).outcome =
        .ok ({ i with state := x, shell := s' }, t) ∧
      t.record = m.actions.map (·, none) ∧ s.Noted s' := by
  obtain ⟨s', hj, hn, _⟩ := macrostep_of_reacts env h hc
  obtain ⟨t, ht⟩ := exists_macrostepTracing hj
  refine ⟨s', t, ht, ?_, hn⟩
  rw [← commitTracing_forget env _ (i.shell, {})] at hc
  obtain ⟨⟨n, failure⟩, hcommit, he⟩ := Turn.map_eq_ok.mp hc
  obtain ⟨rfl, rfl⟩ := Prod.mk.inj he
  obtain ⟨p, rfl, hp, _⟩ := exists_run_of_tracing ht
  obtain rfl := Except.ok.inj (hp.symm.trans (Macrostep.run_of_reacts h hcommit))
  obtain ⟨done, hd, hall, _⟩ := Shell.performAllTracing_record hcommit
  exact hd.trans (hall rfl)

end Interpreter

end Statechart
