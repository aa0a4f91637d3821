import Statechart.Proofs.Macrostep
import Statechart.Proofs.Microstep

-- What holds of a machine between its microsteps.

namespace Statechart

-- The active nodes can be active together, and what is recorded lies where it was recorded for.
structure MachineState.Sound {C : Type} (t : Tree) (s : MachineState C) : Prop where
  legal : s.configuration.isLegal t = true
  within : s.history.Within t
  joint : s.history.Joint t

-- The same, or else nothing is active, as before the start.
structure MachineState.Steady {C : Type} (t : Tree) (s : MachineState C) : Prop where
  legal : s.configuration = ∅ ∨ s.configuration.isLegal t = true
  within : s.history.Within t
  joint : s.history.Joint t

variable {C S σ : Type} {t : Tree} {r : Registry C S} {config : Config} {commit : Commit σ C}
  {p p' q q' : Progress σ C} {us : List Transition} {x : C} {h : History} {s : MachineState C}
  {e : Event} {m : Microstep C} {shell : σ} {trigger : Trigger}

namespace Microstep

-- Entering the root leads to a legal configuration.
theorem resolve_root_isLegal (wf : t.WellFormed) (h : History) :
    (t.resolve h [Tree.root]).isLegal t = true := by
  have hK k : k ∈ t.Concrete h [Tree.root] ↔ k = Tree.root := by
    rw [Tree.mem_concrete]
    simp [Tree.concreteTargets, wf.root_not_history]
  refine (Configuration.isLegal_iff wf).mpr (Configuration.legal_of_compatible
    (K := t.Concrete h [Tree.root]) wf ?_ ?_ ?_ fun n => wf.mem_resolve)
  · apply wf.compatible_of_subsingleton
    intro y hy z hz
    exact ((hK y).mp hy).trans ((hK z).mp hz).symm
  · exact ⟨Tree.root, (hK _).mpr rfl, Tree.self_mem_path⟩
  · exact fun k hk => (hK k).mp hk ▸ wf.root_not_history

theorem initial_ne_illegal (wf : t.WellFormed) : initial t r e x h ≠ .error .illegal := by
  rw [Ne, initial, enter_eq_illegal, resolve_root_isLegal wf]
  simp

theorem initial_eq_ok (hm : initial t r e x h = .ok m) :
    m.configuration.isLegal t = true ∧ m.history = h := by
  have ⟨hl, hc, hh⟩ := enter_eq_ok hm
  exact ⟨hc ▸ hl, hh⟩

end Microstep

namespace Macrostep

theorem takes_sound (wf : t.WellFormed) (hq : q.state.Sound t) (ht : Takes t r commit q us q') :
    q'.state.Sound t := by
  cases ht with
  | @intro m _ ha _ =>
    have ⟨_, hh, hl⟩ := Microstep.take_eq_ok ha
    have hc := (Configuration.isLegal_iff wf).mp hq.legal
    have hw : m.history.Within t := hh ▸ Microstep.historyAfter_within wf hc hq.within
    have hj : m.history.Joint t := hh ▸ Microstep.historyAfter_joint wf hc hq.joint
    exact ⟨hl, hw, hj⟩

-- An offer leaves the state alone and is enabled in it.
theorem offers_selection (ho : Offers t r config p q us) :
    q.state = p.state ∧
      ∃ eventless, (selection t r config q.state q.current eventless).result = .ok us := by
  cases ho with
  | always _ _ hs _ => exact ⟨rfl, true, hs⟩
  | raised _ _ he _ => exact ⟨rfl, false, he⟩

theorem rounds_sound (wf : t.WellFormed) (hp : p.state.Sound t)
    (hr : Relation.ReflTransGen (Round t r config commit) p p') : p'.state.Sound t :=
  rounds_preserve (J := fun _ s => s.Sound t) (fun hq _ _ _ ht => takes_sound wf hq ht) hp hr

-- Without active nodes nothing is enabled.
theorem selection_of_empty (hc : s.configuration = ∅) (e : Event) (eventless : Bool) :
    (selection t r config s e eventless).result = .ok [] := by
  have hl : Configuration.leaves t ∅ = [] := rfl
  rw [selection, select_eq_ok, hc]
  exact ⟨[], by rw [Selection.enabled, hl]; rfl, rfl⟩

theorem ne_empty_of_selection {eventless : Bool}
    (h : (selection t r config s e eventless).result = .ok us) (hus : us ≠ []) :
    s.configuration ≠ ∅ := fun hc =>
  hus (Except.ok.inj (h.symm.trans (selection_of_empty hc e eventless)))

theorem sound_of_selection {eventless : Bool} (hs : s.Steady t)
    (h : (selection t r config s e eventless).result = .ok us) (hus : us ≠ []) : s.Sound t :=
  ⟨hs.legal.resolve_left (ne_empty_of_selection h hus), hs.within, hs.joint⟩

theorem started_sound (wf : t.WellFormed) (hs : s.Steady t)
    (hst : Started t r config commit shell s trigger p) : p.state.Sound t := by
  cases hst with
  | @start m _ hm _ =>
    have ⟨hl, he⟩ := Microstep.initial_eq_ok hm
    have hw : m.history.Within t := he ▸ hs.within
    have hj : m.history.Joint t := he ▸ hs.joint
    exact ⟨hl, hw, hj⟩
  | @event e us _ he hus ht =>
    have hq : (opening t r config shell s e).state.Sound t := sound_of_selection hs he hus
    exact takes_sound wf hq ht

theorem attempts_sound (wf : t.WellFormed) (hs : s.Steady t)
    (ha : Attempts t r config commit shell s trigger q us) :
    q.state.Sound t ∧
      ∃ eventless, (selection t r config q.state q.current eventless).result = .ok us := by
  cases ha with
  | first he hus => exact ⟨sound_of_selection hs he hus, false, he⟩
  | later hst hr ho =>
    have ⟨he, hsel⟩ := offers_selection ho
    exact ⟨he ▸ rounds_sound wf (started_sound wf hs hst) hr, hsel⟩

theorem run_steady (wf : t.WellFormed) (hs : s.Steady t)
    (h : (run t r config commit shell s trigger).outcome = .ok p) : p.state.Steady t := by
  cases (run_state h)
  case inl h =>
    have ⟨x, hp⟩ := h
    exact hp ▸ ⟨hs.legal, hs.within, hs.joint⟩
  case inr h =>
    have ⟨p', q, x, hst, hr, hp⟩ := h
    have hq := rounds_sound wf (started_sound wf hs hst) hr
    exact hp ▸ ⟨.inr hq.legal, hq.within, hq.joint⟩

-- A microstep is refused for its configuration exactly if it can be planned as far as that and one
-- of its transitions targets nodes that cannot be active together.
theorem attempt_eq_illegal {eventless : Bool} (wf : t.WellFormed) (hq : q.state.Sound t)
    (hs : (selection t r config q.state q.current eventless).result = .ok us) :
    attempt t r q us = .error .illegal ↔
      (∃ a, Microstep.leave t r q.current q.state.configuration q.state.context us = .ok a) ∧
        ∃ u ∈ us, ¬ t.Compatible (t.Concrete
          (Microstep.historyAfter t q.state.configuration q.state.history us) u.targets) := by
  rw [attempt, Microstep.take_eq_illegal]
  apply and_congr_right
  intro _
  rw [← Bool.not_eq_true, Microstep.next_isLegal_iff wf hq.legal hq.within hs]
  simp

end Macrostep

end Statechart
