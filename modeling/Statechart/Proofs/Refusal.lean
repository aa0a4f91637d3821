import Statechart.Interpreter.Nested
import Statechart.Proofs.Build
import Statechart.Proofs.Planning
import Statechart.Proofs.Settle

-- What is left of a microstep that is refused because one of its actions fails: the configuration
-- stays, but what was carried out before the failure is not undone.

namespace Statechart

namespace Macrostep

variable {C S σ : Type} {t : Tree} {r : Registry C S} {config : Config} {commit : Commit σ C}
  {q : Progress σ C} {us : List Transition} {m : Microstep C} {s : MachineState C}
  {shell shell' : σ} {trigger : Trigger} {err : ExecutionError}

-- A macrostep ends with the microstep that is refused.
theorem run_of_refused (ha : Attempts t r config commit shell s trigger q us)
    (hm : attempt t r q us = .ok m)
    (hc : (commit q.shell m q.current).outcome = .ok (shell', some err)) :
    (run t r config commit shell s trigger).outcome = .ok (q.refuse shell' m err) := by
  rw [run_of_attempts ha, hm]
  change (begin t r config commit q (.step m)).outcome = _
  rw [begin, Turn.outcome_bind, hc]
  rfl

-- What every commit keeps still holds when a microstep is attempted.
theorem shell_of_attempts {I : σ → Prop}
    (hI : ∀ s m e s', I s → (commit s m e).outcome = .ok (s', none) → I s') (hs : I shell)
    (ha : Attempts t r config commit shell s trigger q us) : I q.shell := by
  cases ha with
  | first => exact hs
  | later hst hr ho => exact offers_shell ho ▸ shell_of_rounds hI hs hst hr

-- Where something is to be taken, something is active, and the machine is not done.
theorem attempts_running (hd : s.done = false)
    (ha : Attempts t r config commit shell s trigger q us) :
    q.state.done = false ∧ q.state.configuration ≠ ∅ := by
  cases ha with
  | first hs hus => exact ⟨hd, ne_empty_of_selection hs hus⟩
  | later _ _ ho =>
    cases ho with
    | always hd _ hs hus => exact ⟨hd, ne_empty_of_selection hs hus⟩
    | raised hset _ hs hus => exact ⟨hset.running, ne_empty_of_selection hs hus⟩

end Macrostep

namespace Shell

variable {C S A : Type} [ActorModel C S A]

-- What is there after `actions` were carried out from `s` on: a delayed event or an actor was there
-- before or came with one of the actions, and none of the later actions ended it. An actor that was
-- there before has at most been sent something.
structure LeftBy (env : Env) (actions : List Planned) (s s' : Shell C A) : Prop where
  timers p : p ∈ s'.scheduler.queue ↔
    (p ∈ s.scheduler.queue ∧ ∀ a ∈ actions, a.endsTimer env.now p = false) ∨
      ∃ before a later, actions = before ++ a :: later ∧
        (∃ e, a.scheduled? env.now = some e ∧ p = { e with
          ticket := (before.foldl (Scheduler.after env.now) s.scheduler).lastTicket + 1 }) ∧
        ∀ b ∈ later, b.endsTimer env.now p = false
  actors id : id ∈ s'.actors.ids ↔
    (id ∈ s.actors.ids ∧ ∀ a ∈ actions, a.endsActor id = false) ∨
      ∃ before a later, actions = before ++ a :: later ∧ a.startsActor id = true ∧
        ∀ b ∈ later, b.endsActor id = false
  kept id x : s.actors.find? id = some x → (∀ a ∈ actions, a.endsActor id = false) →
    ∃ y, s'.actors.find? id = some y ∧ Relation.ReflTransGen
      (fun x y => ∃ e, (ActorModel.send (C := C) env e x).outcome = .ok y) x y

variable {env : Env} {s s' s'' : Shell C A} {actions : List Planned}

theorem CarriedAll.leftBy (h : CarriedAll env actions s s') (hn : s.actors.ids.Nodup) :
    LeftBy env actions s s' where
  timers p := by rw [h.scheduler, Scheduler.mem_afterAll]
  actors id := by rw [h.ids, Planned.mem_onIdsAll hn]
  kept _ _ hf ha := h.kept ha hf

theorem LeftBy.of_eq (h : LeftBy env actions s s') (ha : s''.actors = s'.actors)
    (hs : s''.scheduler = s'.scheduler) : LeftBy env actions s s'' where
  timers := hs ▸ h.timers
  actors := ha ▸ h.actors
  kept := ha ▸ h.kept

end Shell

namespace Interpreter

variable {C S A : Type} [ActorModel C S A] {env : Env} {i : Interpreter C S A}
  {q : Progress (Shell C A) C} {us : List Transition} {m : Microstep C} {s : Shell C A}
  {e : Event} {err : ExecutionError}

theorem commit_nodup {r : Registry C S} {s s' : Shell C A} (hn : s.actors.ids.Nodup)
    (hc : (commit env r s m e).outcome = .ok (s', none)) : s'.actors.ids.Nodup := by
  rw [(Shell.performAll_ok hc).ids]
  exact Planned.nodup_onIdsAll hn

-- After the refusal the interpreter goes on with the configuration it had before.
theorem macrostep_ok_of_refused (hp : i.machine.config.errorPolicy = .abort)
    (hd : i.state.done = false)
    (ha : Macrostep.Attempts i.machine.tree i.machine.registry i.machine.config
      (commit env i.machine.registry) i.shell i.state (.event e) q us)
    (hm : Macrostep.attempt i.machine.tree i.machine.registry q us = .ok m)
    (hc : (commit env i.machine.registry q.shell m q.current).outcome = .ok (s, some err)) :
    ∃ s', (i.macrostep env (.event e)).outcome =
        .ok { i with state := { q.state with context := m.context }, shell := s' } ∧
      s.Noted s' ∧ s'.lastError = some err := by
  have ⟨hdone, hactive⟩ := Macrostep.attempts_running hd ha
  have ⟨s', h, hn, herr⟩ := macrostep_of_run (Macrostep.run_of_refused ha hm hc) hp hdone hactive
  exact ⟨s', h, hn, herr⟩

-- A refused microstep leaves the configuration as it was, and the delayed events and the actors as
-- the actions before the one that failed have made them. Once it has left its nodes, whatever
-- belonged to these is gone, although they are still active.
theorem macrostep_of_refused {root : Definition.State} {machineId : String}
    (hb : root.build machineId = .ok i.machine.tree) (hp : i.machine.config.errorPolicy = .abort)
    (hd : i.state.done = false) (hn : i.shell.actors.ids.Nodup)
    (ha : Macrostep.Attempts i.machine.tree i.machine.registry i.machine.config
      (commit env i.machine.registry) i.shell i.state (.event e) q us)
    (hm : Macrostep.attempt i.machine.tree i.machine.registry q us = .ok m)
    (hc : (commit env i.machine.registry q.shell m q.current).outcome = .ok (s, some err)) :
    ∃ done a rest s₁ i', m.actions = done ++ a :: rest ∧ Shell.CarriedAll env done q.shell s₁ ∧
      (s₁.perform env i.machine.registry m.context q.current a).outcome = .ok (s, some err) ∧
      (i.macrostep env (.event e)).outcome = .ok i' ∧
      i'.state = { q.state with context := m.context } ∧ i'.shell.lastError = some err ∧
      q.shell.LeftBy env done i'.shell ∧
      (m.exitActions <+: done → ∀ n ∈ m.exited, n ∈ i'.state.configuration ∧
        (∀ p : Pending, p.owner = n → ∃ b ∈ done, b.endsTimer env.now p = true) ∧
        ∀ v ∈ (i.machine.tree.node n).invocations, ∃ b ∈ done, b.endsActor v.id = true) := by
  have wf := Definition.State.build_wellFormed hb
  have ⟨done, a, rest, s₁, hl, hdone, hfail, hposted⟩ := Shell.performAll_failed hc
  have ⟨s', hi, hnoted, herr⟩ := macrostep_ok_of_refused hp hd ha hm hc
  have hq := Macrostep.shell_of_attempts (I := fun s : Shell C A => s.actors.ids.Nodup)
    (fun _ _ _ _ => commit_nodup) hn ha
  refine ⟨done, a, rest, s₁, _, hl, hdone, hfail, hi, rfl, herr, ?_, fun hexits n hx => ?_⟩
  case refine_1 =>
    exact (hdone.leftBy hq).of_eq (hnoted.actors.trans hposted.actors)
      (hnoted.scheduler.trans hposted.scheduler)
  case refine_2 =>
    have ⟨hcancel, hstop⟩ := Microstep.mem_exitActions hm hx
    refine ⟨?_, fun p hpn => ⟨_, hexits.subset hcancel, by simp [Planned.endsTimer, hpn]⟩,
      fun v hv => ⟨_, hexits.subset (hstop v hv), by simp [Planned.endsActor]⟩⟩
    rw [(Microstep.take_lists hm).left, Microstep.mem_exitedBy wf] at hx
    exact hx.left

-- A fuse goes off a second after it was last lit. Putting it out fails.
def fuse : Definition.State :=
  .mk { key := "m", initial := some "lit" } [
    .mk {
      key := "lit"
      transitions := [
        (.event "OUT", { targets := ["out"], actions := [.named "pinch"] }),
        (.event "RELIGHT", { targets := ["lit"] }),
        (.after (.fixed (.ofMillis 1000)), { targets := ["off"] })] } [],
    .mk { key := "out" } [],
    .mk { key := "off" } []]

def fuseTree : Tree := ((Definition.Layout.ofState "m" fuse).lower "m").value

theorem fuse_build : fuse.build "m" = .ok fuseTree :=
  Definition.State.build_of_problems (by decide +kernel)

def fuseMachine : NestedMachine Unit 0 where
  tree := fuseTree
  registry := { actions := .ofList [("pinch", .effect fun _ _ => { failure := some ⟨"hot"⟩ })] }
  context := ()

def fuseEnv : Env := { now := .zero }

def fuseTimer : Scheduled where
  event := { name := "after(1000)#m.lit" }
  target := .self
  owner := 1
  id := some "after(1000)#m.lit"
  deadline := .ofMillis 1000

def fuseWaiting : Scheduler := { queue := [{ fuseTimer with ticket := 1 }], lastTicket := 1 }

theorem fuse_initial : ∃ m,
    Microstep.initial fuseMachine.tree fuseMachine.registry .init () ∅ = .ok m ∧
      m.configuration = .ofList [0, 1] ∧ m.done = false ∧ m.entered = [0, 1] ∧
      m.actions = [.send fuseTimer.event .self (some (.ofMillis 1000)) fuseTimer.id 1] ∧
      m.raised = [] :=
  Microstep.exists_eq_ok (by decide +kernel)

theorem fuse_start : ∃ s : Shell Unit (Actor (Child Unit 0)),
    ((Interpreter.new fuseMachine).start fuseEnv).outcome = .ok {
      machine := fuseMachine
      state := { configuration := .ofList [0, 1], context := (), history := ∅ }
      shell := s } ∧ s.actors = [] ∧ s.scheduler = fuseWaiting := by
  have ⟨m, hreacts, ha⟩ : ∃ m, Macrostep.Reacts fuseMachine.tree fuseMachine.registry
      fuseMachine.config (.plain ∅) .start m (.plain (.ofList [0, 1])) ∧
        m.actions = [.send fuseTimer.event .self (some (.ofMillis 1000)) fuseTimer.id 1] :=
    Macrostep.exists_reacts (by decide +kernel)
  have ⟨s', h, hn, _⟩ := start_of_reacts fuseEnv
    (i := (Interpreter.new fuseMachine : NestedInterpreter Unit 0))
    (s := { id := "m", status := .running, scheduler := fuseWaiting }) rfl hreacts
    (by rw [commit, ha]; rfl) ⟨rfl, rfl⟩ rfl
  exact ⟨s', h, hn.actors, hn.scheduler⟩

-- The state `lit` is left, and then the pinch fails.
theorem fuse_out (s : Shell Unit (Actor (Child Unit 0))) : ∃ q us m s', q.shell = s ∧
    q.state = { configuration := .ofList [0, 1], context := (), history := ∅ } ∧
    Macrostep.Attempts fuseMachine.tree fuseMachine.registry fuseMachine.config
      (commit fuseEnv fuseMachine.registry) s
      { configuration := .ofList [0, 1], context := (), history := ∅ }
      (.event ⟨"OUT", .null⟩) q us ∧
    Macrostep.attempt fuseMachine.tree fuseMachine.registry q us = .ok m ∧ m.exited = [1] ∧
    m.exitActions = [.cancel "after(1000)#m.lit", .cancelOwned 1] ∧
    m.actions = m.exitActions ++ [.effect "pinch"] ∧
    (commit fuseEnv fuseMachine.registry q.shell m q.current).outcome =
      .ok (s', some (.action "pinch" "OUT" ⟨"hot"⟩)) ∧
    s'.scheduler = (s.scheduler.cancelId "after(1000)#m.lit").cancelOwner 1 := by
  have ⟨m, hm, hx, he, ha⟩ : ∃ m, Microstep.take fuseMachine.tree fuseMachine.registry
      ⟨"OUT", .null⟩ (.ofList [0, 1]) () ∅ ((fuseTree.node 1).transitions.take 1) = .ok m ∧
        m.exited = [1] ∧ m.exitActions = [.cancel "after(1000)#m.lit", .cancelOwned 1] ∧
        m.actions = m.exitActions ++ [.effect "pinch"] :=
    Microstep.exists_eq_ok (by decide +kernel)
  refine ⟨_, (fuseTree.node 1).transitions.take 1, m,
    { s with scheduler := (s.scheduler.cancelId "after(1000)#m.lit").cancelOwner 1 }, rfl, rfl,
    .first ?_ (by decide +kernel), hm, hx, he, ha, ?_, rfl⟩
  case refine_1 => exact Evaluation.eq_ok_of_toOption (by decide +kernel)
  case refine_2 =>
    rw [commit, ha, he]
    rfl

-- What is left of the fuse: it is still lit, but will not go off any more.
theorem macrostep_of_refused_fuse : ∃ i i' : NestedInterpreter Unit 0,
    ((Interpreter.new fuseMachine).start fuseEnv).outcome = .ok i ∧
    (i.macrostep fuseEnv (.event ⟨"OUT", .null⟩)).outcome = .ok i' ∧
    i.shell.scheduler.queue = [{ fuseTimer with ticket := 1 }] ∧
    i'.state.configuration = .ofList [0, 1] ∧
    i'.shell.lastError = some (.action "pinch" "OUT" ⟨"hot"⟩) ∧ i'.shell.scheduler.queue = [] := by
  obtain ⟨s, hs, hactors, hq⟩ := fuse_start
  obtain ⟨q, us, m, s', hqs, hqst, ha, hm, hx, he, hl, hc, _⟩ := fuse_out s
  obtain ⟨done, a, rest, s₁, i', hsplit, _, hfail, hi, hst, herr, hleft, hexits⟩ :=
    macrostep_of_refused (i := { machine := fuseMachine, shell := s, .. }) fuse_build rfl rfl
      (by simp [hactors, Arena.ids]) ha hm hc
  have hne : a ∉ m.exitActions := by
    rw [he]
    simp only [List.mem_cons, List.not_mem_nil, or_false, not_or]
    constructor <;> rintro rfl <;> cases hfail
  -- Cancelling cannot fail, so that it is the pinch that did.
  have hd : done = m.exitActions := by
    rcases List.append_eq_append_iff.mp (hl.symm.trans hsplit) with ⟨l, hd, h⟩ | ⟨l, hx, h⟩
    · cases l with
      | nil => simpa using hd
      | cons b l => simp at h
    · cases l with
      | nil => simpa using hx.symm
      | cons b l =>
        obtain rfl := (List.cons.inj h).left
        exact absurd (by simp [hx]) hne
  refine ⟨_, i', hs, hi, by simp [hq, fuseWaiting], hst ▸ hqst ▸ rfl, herr, ?_⟩
  refine List.eq_nil_iff_forall_not_mem.mpr fun p hp => ?_
  cases ((hleft.timers p).mp hp)
  case inl h =>
    obtain ⟨_, hends, _⟩ := hexits (hd ▸ List.prefix_refl _) 1 (by simp [hx])
    have hp : p = { fuseTimer with ticket := 1 } := by simpa [hqs, hq, fuseWaiting] using h.left
    obtain ⟨b, hb, hbp⟩ := hends p (by rw [hp]; rfl)
    simp [h.right b hb] at hbp
  case inr h =>
    obtain ⟨before, b, later, hb, ⟨e, hsched, _⟩, _⟩ := h
    have hb : b ∈ m.exitActions := by simp [← hd, hb]
    rw [he] at hb
    simp only [List.mem_cons, List.not_mem_nil, or_false] at hb
    rcases hb with rfl | rfl <;> cases hsched

-- A node can stay active although its timer is gone.
theorem exists_timer_lost : ¬ ∀ (root : Definition.State) (machineId : String)
    (m : NestedMachine Unit 0) (env : Env) (i i' : NestedInterpreter Unit 0) (e : Event)
    (err : ExecutionError) (p : Pending), root.build machineId = .ok m.tree →
      m.config.errorPolicy = .abort → ((Interpreter.new m).start env).outcome = .ok i →
      (i.macrostep env (.event e)).outcome = .ok i' → i'.shell.lastError = some err →
      i'.state = i.state → p ∈ i.shell.scheduler.queue → p.owner ∈ i'.state.configuration →
      p ∈ i'.shell.scheduler.queue := by
  intro h
  have ⟨s, hs, _, hq⟩ := fuse_start
  have ⟨q, us, m, s', hqs, hqst, ha, hm, _, _, _, hc, hs'⟩ := fuse_out s
  have ⟨s'', hi, hn, herr⟩ :=
    macrostep_ok_of_refused (i := { machine := fuseMachine, shell := s, .. }) rfl rfl ha hm hc
  have hp := h fuse "m" fuseMachine fuseEnv _ _ ⟨"OUT", .null⟩ _ { fuseTimer with ticket := 1 }
    fuse_build rfl hs hi herr (by simp [hqst]) (by simp [hq, fuseWaiting])
    (by simp [hqst, fuseTimer])
  have hempty : ((fuseWaiting.cancelId "after(1000)#m.lit").cancelOwner 1).queue = [] := by
    decide +kernel
  rw [hn.scheduler, hs', hq, hempty] at hp
  exact List.not_mem_nil hp

end Interpreter

end Statechart
