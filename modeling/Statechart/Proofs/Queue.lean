import Statechart.Definition.Build
import Statechart.Machine
import Statechart.Proofs.Macrostep
import Statechart.Proofs.Microstep

-- In which order a macrostep processes the events that the machine raises for itself.

namespace Statechart

-- What a macrostep does: it looks for the transitions `us` that `e` enables in `s`, or that are
-- enabled there without an event, or it commits a microstep.
inductive Deed (C : Type)
  | looked (s : MachineState C) (e : Event) (eventless : Bool) (us : List Transition)
  | committed (m : Microstep C)

namespace Deed

variable {C : Type}

-- The event that is taken up.
def handled : Deed C → List Event
  | looked _ e false _ => [e]
  | _ => []

def raised : Deed C → List Event
  | committed m => m.raised
  | _ => []

def onState (s : MachineState C) : Deed C → MachineState C
  | committed m => s.after m
  | _ => s

end Deed

namespace Macrostep

variable {C S σ : Type} (t : Tree) (r : Registry C S) (config : Config) (commit : Commit σ C)

-- The event that was taken up last.
def currentAfter (ds : List (Deed C)) : Event := (ds.flatMap Deed.handled).getLast?.getD .init

-- What is done to find the transitions `us` that are taken next, at `q`.
inductive Looks (p : Progress σ C) : List (Deed C) → Progress σ C → List Transition → Prop
  | always {us : List Transition} : p.state.done = false → p.microsteps < config.maxMicrosteps →
      (selection t r config p.state p.current true).result = .ok us → us ≠ [] →
      Looks p [.looked p.state p.current true us]
        (p.noteErrors (selection t r config p.state p.current true).guardErrors) us
  | raised {e : Event} {rest : List Event} {us : List Transition} : Settled t r config p →
      p.raised = e :: rest → (selection t r config p.state e false).result = .ok us →
      Looks p [.looked p.state p.current true [], .looked p.state e false us]
        (dequeue t r config p e rest) us

-- What is done in one round.
inductive Proceeds (p : Progress σ C) : List (Deed C) → Progress σ C → Prop
  | microstep {ds q us m shell} : Looks t r config p ds q us → us ≠ [] →
      attempt t r q us = .ok m → (commit q.shell m q.current).outcome = .ok (shell, none) →
      Proceeds p (ds ++ [.committed m]) (q.accept shell m)
  | skip {ds q} : Looks t r config p ds q [] → Proceeds p ds q

-- What is done until the first microstep is committed.
inductive Begins (shell : σ) (s : MachineState C) :
    Trigger → List (Deed C) → Progress σ C → Prop
  | start {m shell'} : Microstep.initial t r .init s.context s.history = .ok m →
      (commit shell m .init).outcome = .ok (shell', none) →
      Begins shell s .start [.committed m]
        ({ shell := shell, state := s, current := .init : Progress σ C }.accept shell' m)
  | event {e us m shell'} : (selection t r config s e false).result = .ok us → us ≠ [] →
      attempt t r (opening t r config shell s e) us = .ok m →
      (commit shell m e).outcome = .ok (shell', none) →
      Begins shell s (.event e) [.looked s e false us, .committed m]
        ((opening t r config shell s e).accept shell' m)

-- A macrostep from `s` does `ds` to get to `p`.
inductive Reaches (shell : σ) (s : MachineState C) (trigger : Trigger) :
    List (Deed C) → Progress σ C → Prop
  | begins {ds p} : Begins t r config commit shell s trigger ds p → Reaches shell s trigger ds p
  | proceeds {ds p ds' q} : Reaches shell s trigger ds p → Proceeds t r config commit p ds' q →
      Reaches shell s trigger (ds ++ ds') q

-- A macrostep from `s` does `ds` and comes to rest at `p`, where nothing is left to be done.
inductive Completes (shell : σ) (s : MachineState C) (trigger : Trigger) :
    List (Deed C) → Progress σ C → Prop
  | intro {ds p} : Reaches t r config commit shell s trigger ds p → Settled t r config p →
      p.raised = [] → Completes shell s trigger (ds ++ [.looked p.state p.current true []])
        (p.noteErrors (selection t r config p.state p.current true).guardErrors)

-- After its trigger, `ds` takes up an event only where no transition is enabled that needs none.
def InOrder (s : MachineState C) (ds : List (Deed C)) : Prop :=
  ∀ before s' e us, before ++ [.looked s' e false us] <+: ds → before ≠ [] →
    s' = before.foldl Deed.onState s ∧
      (selection t r config s' (currentAfter before) true).result = .ok []

-- Every event that was raised was taken up or is in the queue, first come, first served.
structure Served (s : MachineState C) (trigger : Trigger) (ds : List (Deed C))
    (p : Progress σ C) : Prop where
  handled : ds.flatMap Deed.handled ++ p.raised = trigger.events ++ ds.flatMap Deed.raised
  state : p.state = ds.foldl Deed.onState s
  current : p.current = currentAfter ds
  inOrder : InOrder t r config s ds
  begun : ds ≠ []

variable {t r config commit} {shell : σ} {s : MachineState C} {trigger : Trigger}
  {ds ds' : List (Deed C)} {p q p' : Progress σ C} {us : List Transition} {d : Deed C}

theorem offers_of_looks (h : Looks t r config p ds q us) (hus : us ≠ []) :
    Offers t r config p q us := by
  cases h with
  | always hd hl hs _ => exact .always hd hl hs hus
  | raised hs hr he => exact .raised hs hr he hus

theorem exists_looks (h : Offers t r config p q us) : ∃ ds, Looks t r config p ds q us := by
  cases h with
  | always hd hl hs hus => exact ⟨_, .always hd hl hs hus⟩
  | raised hs hr he _ => exact ⟨_, .raised hs hr he⟩

theorem offers_ne_nil (h : Offers t r config p q us) : us ≠ [] := by
  cases h <;> assumption

theorem round_of_proceeds (h : Proceeds t r config commit p ds q) :
    Round t r config commit p q := by
  cases h with
  | microstep hl hus hm hc => exact .microstep (offers_of_looks hl hus) ⟨hm, hc⟩
  | skip hl =>
    cases hl with
    | always _ _ _ hus => contradiction
    | raised hs hr he => exact .skip hs hr he

theorem exists_proceeds (h : Round t r config commit p q) :
    ∃ ds, Proceeds t r config commit p ds q := by
  cases h with
  | microstep ho ht =>
    have ⟨_, hl⟩ := exists_looks ho
    have hus := offers_ne_nil ho
    cases ht with
    | intro hm hc => exact ⟨_, .microstep hl hus hm hc⟩
  | skip hs hr he => exact ⟨_, .skip (.raised hs hr he)⟩

theorem started_of_begins (h : Begins t r config commit shell s trigger ds p) :
    Started t r config commit shell s trigger p := by
  cases h with
  | start hm hc => exact .start hm hc
  | event hs hus hm hc => exact .event hs hus ⟨hm, hc⟩

theorem exists_begins (h : Started t r config commit shell s trigger p) :
    ∃ ds, Begins t r config commit shell s trigger ds p := by
  cases h with
  | start hm hc => exact ⟨_, .start hm hc⟩
  | event hs hus ht =>
    cases ht with
    | intro hm hc => exact ⟨_, .event hs hus hm hc⟩

-- A macrostep goes on from where it has got to, and no error has come up.
theorem run_of_reaches (h : Reaches t r config commit shell s trigger ds p) :
    (run t r config commit shell s trigger).outcome = (loop t r config commit p).outcome ∧
      0 < p.microsteps ∧ p.error = none := by
  induction h with
  | begins hb =>
    refine ⟨run_of_started (started_of_begins hb), ?_⟩
    cases hb <;> exact ⟨Nat.succ_pos _, rfl⟩
  | proceeds _ hp ih =>
    have ⟨hrun, hpos, he⟩ := ih
    refine ⟨hrun.trans (loop_of_rounds (.single (round_of_proceeds hp))), ?_⟩
    cases hp with
    | microstep hl _ _ _ => cases hl <;> exact ⟨Nat.succ_pos _, he⟩
    | skip hl => cases hl <;> exact ⟨hpos, he⟩

theorem run_of_completes (h : Completes t r config commit shell s trigger ds p) :
    (run t r config commit shell s trigger).outcome = .ok p ∧ 0 < p.microsteps ∧
      p.error = none ∧ p.state.done = false := by
  cases h with
  | intro hr hs hq =>
    have ⟨hrun, hpos, he⟩ := run_of_reaches hr
    exact ⟨hrun.trans (loop_of_stops commit (.resting hs hq)), hpos, he, hs.running⟩

theorem completes_of_loop (hr : Reaches t r config commit shell s trigger ds p)
    (h : (loop t r config commit p).outcome = .ok p') (he : p'.error = none)
    (hd : p'.state.done = false) : ∃ ds', Completes t r config commit shell s trigger ds' p' := by
  induction p using (round_wellFounded t r config commit).induction generalizing ds with
  | h p ih =>
    rcases loop_flawless h he with hq | ⟨q, hq, h⟩
    · cases hq with
      | done hdone => simp [hdone] at hd
      | resting hs hq => exact ⟨_, hr, hs, hq⟩
      | limited => contradiction
      | failed => contradiction
      | raised => contradiction
    · have ⟨_, hp⟩ := exists_proceeds hq
      exact ih q hq (hr.proceeds hp) h

-- A macrostep that commits a microstep, reports no error and does not end the machine comes to
-- rest.
theorem completes_of_run (h : (run t r config commit shell s trigger).outcome = .ok p)
    (hm : 0 < p.microsteps) (he : p.error = none) (hd : p.state.done = false) :
    ∃ ds, Completes t r config commit shell s trigger ds p := by
  rcases run_flawless h he with ⟨e, rfl, _, rfl⟩ | ⟨q, hq, h⟩
  · contradiction
  · have ⟨_, hb⟩ := exists_begins hq
    exact completes_of_loop (.begins hb) h he hd

theorem inOrder_concat (h : InOrder t r config s ds)
    (hd : ∀ s' e us, d = .looked s' e false us → s' = ds.foldl Deed.onState s ∧
      (selection t r config s' (currentAfter ds) true).result = .ok []) :
    InOrder t r config s (ds ++ [d]) := by
  intro before s' e us hp hb
  cases (List.prefix_concat_iff.mp hp)
  case inl he =>
    have ⟨hds, he⟩ := List.append_inj' he rfl
    exact hds ▸ hd s' e us (List.singleton_inj.mp he).symm
  case inr hp => exact h before s' e us hp hb

theorem inOrder_singleton (d : Deed C) : InOrder t r config s [d] := by
  intro before s' e us hp hb
  have hl := hp.length_le
  cases before with
  | nil => contradiction
  | cons => simp at hl

-- A look without an event changes nothing.
theorem Served.always (h : Served t r config s trigger ds p) (us : List Transition) :
    Served t r config s trigger (ds ++ [.looked p.state p.current true us]) p where
  handled := by simpa [Deed.handled, Deed.raised] using h.handled
  state := by simpa [Deed.onState] using h.state
  current := by simpa [currentAfter, Deed.handled] using h.current
  inOrder := inOrder_concat h.inOrder (by simp)
  begun := by simp

theorem served_looks (h : Served t r config s trigger ds p) (hl : Looks t r config p ds' q us) :
    Served t r config s trigger (ds ++ ds') q := by
  cases hl with
  | always _ _ _ _ =>
    have ⟨hh, hst, hc, ho, hb⟩ := h.always us
    exact ⟨hh, hst, hc, ho, hb⟩
  | @raised e rest us hs hr he =>
    have ha := h.always []
    rw [List.append_cons]
    refine ⟨?_, ?_, ?_, inOrder_concat ha.inOrder ?_, by simp⟩
    · have hh := ha.handled
      rw [hr] at hh
      simpa [Deed.handled, Deed.raised, dequeue, Progress.noteErrors] using hh
    · simpa [Deed.onState, dequeue, Progress.noteErrors] using h.state
    · simp [currentAfter, Deed.handled, dequeue, Progress.noteErrors]
    · intro s' e' us' hd
      cases hd
      exact ⟨ha.state, ha.current ▸ hs.none_enabled⟩

-- The events of a microstep go to the end of the queue.
theorem served_commit {m : Microstep C} {shell' : σ} (h : Served t r config s trigger ds q) :
    Served t r config s trigger (ds ++ [.committed m]) (q.accept shell' m) where
  handled := by
    have hh := congrArg (· ++ m.raised) h.handled
    simpa [Deed.handled, Deed.raised, Progress.accept] using hh
  state := by simp [Deed.onState, Progress.accept, h.state]
  current := by simpa [currentAfter, Deed.handled, Progress.accept] using h.current
  inOrder := inOrder_concat h.inOrder (by simp)
  begun := by simp

theorem served_begins (h : Begins t r config commit shell s trigger ds p) :
    Served t r config s trigger ds p := by
  cases h with
  | start _ _ =>
    refine ⟨?_, rfl, rfl, inOrder_singleton _, by simp⟩
    simp [Trigger.events, Deed.handled, Deed.raised, Progress.accept]
  | @event e us m _ _ _ _ _ =>
    have h : Served t r config s (.event e) [.looked s e false us]
        (opening t r config shell s e) := ⟨rfl, rfl, rfl, inOrder_singleton _, by simp⟩
    exact served_commit h

theorem served_reaches (h : Reaches t r config commit shell s trigger ds p) :
    Served t r config s trigger ds p := by
  induction h with
  | begins hb => exact served_begins hb
  | proceeds _ hp ih =>
    cases hp with
    | microstep hl _ _ _ => exact List.append_assoc .. ▸ served_commit (served_looks ih hl)
    | skip hl => exact served_looks ih hl

-- A macrostep that comes to rest has taken up its trigger and every event that was raised on the
-- way, each once and in the order they were raised, and an event only where no transition was
-- enabled without one. In the end nothing is enabled without an event and the queue is empty.
theorem run_serves (h : (run t r config commit shell s trigger).outcome = .ok p)
    (hm : 0 < p.microsteps) (he : p.error = none) (hd : p.state.done = false) :
    (∃ ds, Completes t r config commit shell s trigger ds p) ∧
      ∀ ds, Completes t r config commit shell s trigger ds p →
        ds.flatMap Deed.handled = trigger.events ++ ds.flatMap Deed.raised ∧
        (∀ before s' e us, before ++ [.looked s' e false us] <+: ds → before ≠ [] →
          s' = before.foldl Deed.onState s ∧
            (selection t r config s' (currentAfter before) true).result = .ok []) ∧
        p.state = ds.foldl Deed.onState s ∧ p.current = currentAfter ds ∧
        (selection t r config p.state p.current true).result = .ok [] ∧ p.raised = [] := by
  refine ⟨completes_of_run h hm he hd, fun ds hc => ?_⟩
  cases hc with
  | intro hr hs hq =>
    have ⟨hhandled, hstate, hcurrent, horder, _⟩ := (served_reaches hr).always []
    refine ⟨?_, horder, hstate, hcurrent, hs.none_enabled, hq⟩
    rwa [hq, List.append_nil] at hhandled

section Lamp

-- The lamp takes a moment to get bright.
def lamp : Definition.State :=
  .mk { key := "m", initial := some "off" } [
    .mk {
      key := "off"
      transitions := [
        (.event "SWITCH", { targets := ["on"], actions := [.raise ⟨"WARM", .null⟩] })] } [],
    .mk { key := "on", transitions := [(.event "WARM", { targets := ["bright"] })] } [],
    .mk { key := "bright" } []]

def lampTree : Tree := ((Definition.Layout.ofState "m" lamp).lower "m").value

def lampRegistry : Registry Unit Unit := {}

theorem lamp_switched : ∃ ds p, Reaches lampTree lampRegistry {} Machine.noteActions []
      (.plain (.ofList [0, 1])) (.event ⟨"SWITCH", .null⟩) ds p ∧
    ds.flatMap Deed.raised = [⟨"WARM", .null⟩] ∧
    p.state = .plain (.ofList [0, 2]) ∧ p.current = ⟨"SWITCH", .null⟩ ∧
    p.raised = [⟨"WARM", .null⟩] ∧ p.microsteps = 1 := by
  have ⟨m, hm, hc, hh, hd, hr⟩ : ∃ m, Microstep.take lampTree lampRegistry
      ⟨"SWITCH", .null⟩ (.ofList [0, 1]) () ∅ (lampTree.node 1).transitions = .ok m ∧
        m.configuration = .ofList [0, 2] ∧ m.history = ∅ ∧ m.done = false ∧
        m.raised = [⟨"WARM", .null⟩] := Microstep.exists_eq_ok (by decide +kernel)
  refine ⟨_, _, .begins (.event (Evaluation.eq_ok_of_toOption (a := (lampTree.node 1).transitions)
    (by decide +kernel)) (by decide +kernel) hm rfl), ?_, ?_, rfl, hr, rfl⟩
  · simp [Deed.raised, hr]
  · rw [Progress.accept_state, opening_state, MachineState.plain_after hc hh hd]

-- Once it is warm, the lamp is at rest.
theorem lamp_completes : ∃ ds p, Completes lampTree lampRegistry {} Machine.noteActions []
      (.plain (.ofList [0, 1])) (.event ⟨"SWITCH", .null⟩) ds p ∧
    ds.flatMap Deed.raised = [⟨"WARM", .null⟩] ∧ p.state = .plain (.ofList [0, 3]) := by
  have ⟨ds, p, hp, hraised, hst, hcur, hq, hn⟩ := lamp_switched
  have ⟨m, hm, hc, hh, hd, hr⟩ : ∃ m, Microstep.take lampTree lampRegistry
      ⟨"WARM", .null⟩ (.ofList [0, 2]) () ∅ (lampTree.node 2).transitions = .ok m ∧
        m.configuration = .ofList [0, 3] ∧ m.history = ∅ ∧ m.done = false ∧ m.raised = [] :=
    Microstep.exists_eq_ok (by decide +kernel)
  have hset : Settled lampTree lampRegistry {} p :=
    ⟨hst ▸ rfl, hn ▸ show 1 < 1000 by decide, by
      rw [hst, hcur]
      exact Evaluation.eq_ok_of_toOption (by decide +kernel)⟩
  have hl : Looks lampTree lampRegistry {} p _ _ (lampTree.node 2).transitions :=
    .raised hset hq (by
      rw [hst]
      exact Evaluation.eq_ok_of_toOption (by decide +kernel))
  have hstep : Proceeds lampTree lampRegistry {} Machine.noteActions p _ _ :=
    .microstep hl (by decide +kernel) (by rw [attempt, dequeue_state, hst]; exact hm) rfl
  have hst' (actions : List Planned) : ((dequeue lampTree lampRegistry {} p ⟨"WARM", .null⟩
      []).accept actions m).state = .plain (.ofList [0, 3]) := by
    rw [Progress.accept_state, dequeue_state, hst, MachineState.plain_after hc hh hd]
  refine ⟨_, _, ⟨hp.proceeds hstep, ⟨?_, ?_, ?_⟩, hr⟩, ?_, hst' (p.shell ++ m.actions)⟩
  · rw [hst']
    rfl
  · change p.microsteps + 1 < 1000
    simp [hn]
  · rw [hst', Progress.accept_current, dequeue_current]
    exact Evaluation.eq_ok_of_toOption (by decide +kernel)
  · simp [hraised, Deed.raised, hr]

theorem run_serves_lamp : ∃ ds p, (run lampTree lampRegistry {} Machine.noteActions []
      (.plain (.ofList [0, 1])) (.event ⟨"SWITCH", .null⟩)).outcome = .ok p ∧
    0 < p.microsteps ∧ p.error = none ∧ p.state.done = false ∧
    Completes lampTree lampRegistry {} Machine.noteActions [] (.plain (.ofList [0, 1]))
      (.event ⟨"SWITCH", .null⟩) ds p ∧
    ds.flatMap Deed.handled = [⟨"SWITCH", .null⟩, ⟨"WARM", .null⟩] ∧
    p.current = ⟨"WARM", .null⟩ ∧ p.raised = [] := by
  have ⟨ds, p, hc, hraised, _⟩ := lamp_completes
  have ⟨h, hm, he, hd⟩ := run_of_completes hc
  have ⟨_, hall⟩ := run_serves h hm he hd
  have ⟨hhandled, _, _, hcur, _, hq⟩ := hall ds hc
  rw [hraised] at hhandled
  exact ⟨ds, p, h, hm, he, hd, hc, hhandled, by simp [hcur, currentAfter, hhandled, Trigger.events],
    hq⟩

end Lamp

end Macrostep

end Statechart
