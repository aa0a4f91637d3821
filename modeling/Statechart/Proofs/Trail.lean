import Statechart.Proofs.Planning
import Statechart.Proofs.Play

-- The microsteps that a machine has taken since its start.

namespace Statechart

-- `m` is the latest microstep, and `ms` are those before it, the later ones first.
inductive Trail {C S : Type} (t : Tree) (r : Registry C S) :
    List (Microstep C) → Microstep C → Prop
  | start {e x m} : Microstep.initial t r e x ∅ = .ok m → Trail t r [] m
  | step {ms m policy x e eventless us x' e' m'} : Trail t r ms m →
      (select t r policy m.configuration x e eventless).result = .ok us →
      Microstep.take t r e' m.configuration x' m.history us = .ok m' → Trail t r (m :: ms) m'

-- What was active just before the latest of the microsteps that exited `p`.
def beforeExit (p : NodeIndex) : List (Microstep C) → Option Configuration
  | m' :: m :: ms => if p ∈ m'.exited then some m.configuration else beforeExit p (m :: ms)
  | _ => none

variable {C S σ : Type} {t : Tree} {r : Registry C S} {ms : List (Microstep C)} {m : Microstep C}
  {c : Configuration} {k n p : NodeIndex} {kind : HistoryKind}

namespace Trail

theorem legal (ht : Trail t r ms m) : m.configuration.isLegal t = true := by
  cases ht with
  | start hm => exact (Microstep.initial_eq_ok hm).left
  | step _ _ hm => exact (Microstep.take_eq_ok hm).right.right

theorem within (wf : t.WellFormed) (ht : Trail t r ms m) : m.history.Within t := by
  induction ht with
  | start hm => exact (Microstep.initial_eq_ok hm).right ▸ History.empty_within
  | step ht _ hm ih =>
    rw [(Microstep.take_eq_ok hm).right.left]
    exact Microstep.historyAfter_within wf ((Configuration.isLegal_iff wf).mp ht.legal) ih

-- What a history node remembers is what was active when its parent was last exited.
theorem find?_history (wf : t.WellFormed) (ht : Trail t r ms m)
    (hk : (t.node k).kind = .history kind) (hp : (t.node k).parent = some p) :
    m.history.find? k =
      (beforeExit p (m :: ms)).map fun c => History.remembered t c p kind := by
  induction ht with
  | start hm =>
    rw [(Microstep.initial_eq_ok hm).right, History.find?_empty]
    rfl
  | step ht _ hm ih =>
    rw [(Microstep.take_eq_ok hm).right.left, Microstep.find?_historyAfter wf hk hp, beforeExit,
      (Microstep.take_lists hm).left, ih]
    split <;> rfl

-- The parent was active then.
theorem beforeExit_active (wf : t.WellFormed) (ht : Trail t r ms m)
    (hc : beforeExit p (m :: ms) = some c) : c.Legal t ∧ p ∈ c := by
  induction ht with
  | start => contradiction
  | step ht _ hm ih =>
    rw [beforeExit] at hc
    split at hc
    case isTrue hp =>
      obtain rfl := Option.some.inj hc
      rw [(Microstep.take_lists hm).left, Microstep.mem_exitedBy wf] at hp
      exact ⟨(Configuration.isLegal_iff wf).mp ht.legal, hp.left⟩
    case isFalse => exact ih hc

-- One more microstep, as it is computed.
theorem exists_step {P : Microstep C → Prop} [DecidablePred P] (ht : Trail t r ms m)
    (policy : GuardPolicy) (x : C) (e : Event) (us : List Transition)
    (hs : (select t r policy m.configuration x e false).result.toOption = some us)
    (hm : (Microstep.take t r e m.configuration x m.history us).toOption.any (fun m => P m) =
      true) : ∃ m', Trail t r (m :: ms) m' ∧ P m' := by
  have ⟨m', hm', hp⟩ := Microstep.exists_eq_ok hm
  exact ⟨m', ht.step (Evaluation.eq_ok_of_toOption hs) hm', hp⟩

-- The player plays, flips both the sound and the picture, and is switched off.
theorem player : ∃ m₀ m₁ m₂ m₃, Trail playerTree ({} : Registry Unit Unit) [m₂, m₁, m₀] m₃ ∧
    m₂.configuration = .ofList [0, 2, 4, 6, 7, 10] ∧ 7 ∈ m₃.exited ∧
    m₃.configuration = .ofList [0, 1] ∧
    m₃.history = .ofList [(3, .ofList [6, 10]), (8, .ofList [10])] := by
  have ⟨m₀, h₀, hc₀, hh₀⟩ : ∃ m₀,
      Microstep.initial playerTree ({} : Registry Unit Unit) .init () ∅ = .ok m₀ ∧
        m₀.configuration = .ofList [0, 1] ∧ m₀.history = ∅ :=
    Microstep.exists_eq_ok (by decide +kernel)
  have ⟨m₁, t₁, hc₁, hh₁⟩ : ∃ m₁, Trail playerTree ({} : Registry Unit Unit) [m₀] m₁ ∧
      m₁.configuration = .ofList [0, 2, 4, 5, 7, 9] ∧ m₁.history = ∅ :=
    exists_step (.start h₀) .treatAsFalse () ⟨"PLAY", .null⟩
      ((playerTree.node 1).transitions.take 1) (by rw [hc₀]; decide +kernel)
      (by rw [hc₀, hh₀]; decide +kernel)
  have ⟨m₂, t₂, hc₂, hh₂⟩ : ∃ m₂, Trail playerTree ({} : Registry Unit Unit) [m₁, m₀] m₂ ∧
      m₂.configuration = .ofList [0, 2, 4, 6, 7, 10] ∧ m₂.history = ∅ :=
    exists_step t₁ .treatAsFalse () ⟨"FLIP", .null⟩
      ((playerTree.node 5).transitions ++ (playerTree.node 9).transitions.drop 1)
      (by rw [hc₁]; decide +kernel) (by rw [hc₁, hh₁]; decide +kernel)
  have ⟨m₃, t₃, hx₃, hc₃, hh₃⟩ : ∃ m₃, Trail playerTree ({} : Registry Unit Unit) [m₂, m₁, m₀] m₃ ∧
      7 ∈ m₃.exited ∧ m₃.configuration = .ofList [0, 1] ∧
      m₃.history = .ofList [(3, .ofList [6, 10]), (8, .ofList [10])] :=
    exists_step t₂ .treatAsFalse () ⟨"QUIT", .null⟩ (playerTree.node 2).transitions
      (by rw [hc₂]; decide +kernel) (by rw [hc₂, hh₂]; decide +kernel)
  exact ⟨m₀, m₁, m₂, m₃, t₃, hc₂, hx₃, hc₃, hh₃⟩

end Trail

-- Nothing has happened yet, or a trail leads to what is active and recorded.
def MachineState.Traced (t : Tree) (r : Registry C S) (s : MachineState C) : Prop :=
  s.configuration = ∅ ∧ s.history = ∅ ∨ ∃ ms m, Trail t r ms m ∧
    s.configuration = m.configuration ∧ s.history = m.history

section Runs

variable {config : Config} {commit : Commit σ C} {q q' p' : Progress σ C} {us : List Transition}
  {s : MachineState C} {shell : σ} {trigger : Trigger}

namespace Macrostep

theorem takes_traced {e : Event} {eventless : Bool} (hq : q.state.Traced t r)
    (hs : (selection t r config q.state e eventless).result = .ok us) (hus : us ≠ [])
    (ht : Takes t r commit q us q') : q'.state.Traced t r := by
  cases hq
  case inl h => exact absurd h.left (ne_empty_of_selection hs hus)
  case inr h =>
    have ⟨ms, m, hm, hc, hh⟩ := h
    cases ht with
    | @intro m' _ ha _ =>
      rw [selection, hc] at hs
      rw [attempt, hc, hh] at ha
      exact .inr ⟨_, m', hm.step hs ha, rfl, rfl⟩

-- However its microsteps are committed, a macrostep continues the trail it starts from.
theorem run_traced (hs : s.Traced t r) (hst : trigger = .start → s.history = ∅)
    (h : (run t r config commit shell s trigger).outcome = .ok q) : q.state.Traced t r := by
  refine run_preserves (J := fun _ s => s.Traced t r)
    (fun hq _ hs hus ht => takes_traced hq hs hus ht) ?_ (fun hs _ => hs) hs h
  intro p hp
  cases hp with
  | @start m _ hm _ => exact .inr ⟨[], m, .start (hst rfl ▸ hm), rfl, rfl⟩
  | event he hus ht => exact takes_traced (q := opening ..) hs he hus ht

end Macrostep

theorem Machine.play_traced {m : Machine C S} {es : List Event} {step : MachineStep C}
    (h : (m.play es).outcome = .ok step) : step.state.Traced m.tree m.registry :=
  play_preserves (.inl ⟨rfl, rfl⟩)
    (fun _ _ _ hs _ hst hp => Macrostep.run_traced hs (fun he => hst he ▸ rfl) hp) h

end Runs

end Statechart
