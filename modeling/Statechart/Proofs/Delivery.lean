import Statechart.Proofs.Refusal
import Statechart.Proofs.Timers

-- Where an event in the mailbox comes from. A timer that is due goes through the mailbox, where it
-- may have to wait: what comes before it may exit its node and enter it again.

namespace Statechart

variable {C S A : Type} [ActorModel C S A] {m : Machine C S} {now : Duration} {log log' : Log C}
  {stage stage' : Stage C A} {n : NodeIndex} {name : String} {d : Duration}

namespace Stage

def raised : Stage C A → List Event
  | resting .. => []
  | stepping p => p.raised

def Rests : Stage C A → Prop
  | resting .. => True
  | stepping _ => False

end Stage

namespace Log

-- A delayed event of that name was delivered. If nothing was waiting then, the node was neither
-- entered nor exited since, and the event is still `first`.
def Delivered (n : NodeIndex) (name : String) (first : Prop) (log : Log C) : Prop :=
  ∃ since t p waiting before, log = since ++ (t, .delivered p waiting) :: before ∧
    p.event.name = name ∧ (waiting = [] → first ∧ ∀ x ∈ since, x.2.Spares n)

namespace Delivered

variable {first first' : Prop}

theorem append (log' : Log C) (h : log.Delivered n name first)
    (hf : first → first' ∧ ∀ x ∈ log', x.2.Spares n) : (log' ++ log).Delivered n name first' := by
  have ⟨since, t, p, waiting, before, hlog, hp, hw⟩ := h
  refine ⟨log' ++ since, t, p, waiting, before, by simp [hlog], hp, fun he => ?_⟩
  have ⟨hfirst, hs⟩ := hw he
  exact ⟨(hf hfirst).left, List.forall_mem_append.mpr ⟨(hf hfirst).right, hs⟩⟩

theorem not_of_arrivals (hl : ∀ x ∈ log, ∃ v, x.2 = .arrived v) :
    ¬ log.Delivered n name first := by
  intro ⟨since, t, p, waiting, before, hlog, _⟩
  have ⟨v, hv⟩ := hl (t, .delivered p waiting) (by simp [hlog])
  contradiction

end Delivered

end Log

-- What is called `name` in the mailbox was delivered, and nothing that is raised is.
structure Queued (n : NodeIndex) (name : String) (log : Log C) (stage : Stage C A) : Prop where
  raised e : e ∈ stage.raised → e.name ≠ name
  mailbox {k : Nat} {v : Envelope} : stage.shell.mailbox[k]? = some v → v.event.name = name →
    log.Delivered n name (k = 0 ∧ stage.Rests)

namespace Queued

-- What arrives is called otherwise.
theorem of_append {box vs : List Envelope} (hm : stage.shell.mailbox = box ++ vs)
    (hvs : ∀ v ∈ vs, v.event.name ≠ name) (hr : ∀ e ∈ stage.raised, e.name ≠ name)
    (hbox : ∀ (k : Nat) (v : Envelope), box[k]? = some v → v.event.name = name →
      log.Delivered n name (k = 0 ∧ stage.Rests)) : Queued n name log stage where
  raised := hr
  mailbox {k v} hk he := by
    rw [hm, List.getElem?_append] at hk
    split at hk
    case isTrue => exact hbox k v hk he
    case isFalse => exact absurd he (hvs v (List.mem_of_getElem? hk))

-- Where events arrive at most.
theorem spared {vs : List Envelope} (log' : Log C) (h : Queued n name log stage)
    (hl : ∀ x ∈ log', x.2.Spares n) (hm : stage'.shell.mailbox = stage.shell.mailbox ++ vs)
    (hvs : ∀ v ∈ vs, v.event.name ≠ name) (hr : ∀ e ∈ stage'.raised, e.name ≠ name)
    (hs : stage.Rests → stage'.Rests) : Queued n name (log' ++ log) stage' := by
  refine of_append hm hvs hr fun k v hk he => (h.mailbox hk he).append _ fun ⟨hk, hrest⟩ => ?_
  exact ⟨⟨hk, hs hrest⟩, hl⟩

-- What is delivered comes behind what is waiting.
theorem delivered {s : MachineState C} {shell shell' : Shell C A} {p : Pending}
    (h : Queued n name log (.resting s shell))
    (hm : shell'.mailbox =
      shell.mailbox ++ if p.target = .self then [{ event := p.event }] else []) :
    Queued n name ((now, .delivered p shell.mailbox) :: log) (.resting s shell') := by
  refine ⟨List.forall_mem_nil _, fun {k v} hk he => ?_⟩
  rw [Stage.shell, hm, List.getElem?_append] at hk
  split at hk
  case isTrue =>
    refine (h.mailbox hk he).append [_] fun hf => ⟨⟨hf.left, trivial⟩, ?_⟩
    simpa using Happening.Spares.of_nil rfl rfl
  case isFalse =>
    split at hk
    case isTrue =>
      obtain ⟨hlt, rfl⟩ := List.getElem?_eq_some_iff.mp hk
      refine ⟨[], now, p, shell.mailbox, log, rfl, by simpa using he, fun hw => ?_⟩
      exact ⟨⟨by simpa [hw] using hlt, trivial⟩, List.forall_mem_nil _⟩
    case isFalse => simp at hk

omit [ActorModel C S A] in
-- Of the events that are still in the mailbox when a microstep begins, none was delivered alone.
theorem planned {hap : List (Happening C)} {q : Progress (Shell C A) C} {us : List Transition}
    {step : Microstep C} (h : Queued n name log stage) (hf : stage.Fresh log)
    (hp : Plans m stage hap q us step) :
    (∀ e ∈ q.raised, e.name ≠ name) ∧ ∀ (k : Nat) (v : Envelope), q.shell.mailbox[k]? = some v →
      v.event.name = name → log.Delivered n name False := by
  cases hp with
  | start hn _ =>
    refine ⟨nofun, fun k v hk he => ?_⟩
    have ⟨_, _, hl⟩ := hf hn
    exact absurd (h.mailbox hk he) (Log.Delivered.not_of_arrivals hl)
  | @event _ _ v₀ rest _ _ _ hm _ _ _ =>
    refine ⟨nofun, fun k v hk he => ?_⟩
    have hk : (v₀ :: rest)[k + 1]? = some v := hk
    exact (h.mailbox (hm ▸ hk) he).append [] fun ⟨hk, _⟩ => by simp at hk
  | round ho _ =>
    refine ⟨fun e he => ?_, fun k v hk he => ?_⟩
    case refine_1 =>
      cases ho with
      | always => exact h.raised e he
      | raised _ hr =>
        exact h.raised e (show e ∈ Progress.raised _ from hr ▸ List.mem_cons_of_mem _ he)
    case refine_2 =>
      rw [Macrostep.offers_shell ho] at hk
      exact (h.mailbox hk he).append [] fun ⟨_, hs⟩ => hs.elim

end Queued

namespace Course

theorem queued (h : Course m now log stage) (ho : log.OnlyTimer n name d) :
    Queued n name log stage := by
  induction h with
  | new _ _ _ hm =>
    exact ⟨List.forall_mem_nil _, fun hk _ => by simp [Stage.shell, hm] at hk⟩
  | wait _ _ ih => exact ih ho
  | @arrive now _ _ _ _ _ _ hr ih =>
    exact (ih (ho.mono (List.subset_append_right ..))).spared _ Log.arrivals_spare hr.mailbox
      (fun v hv => ho.arrived (t := now) (by simp [hv])) (List.forall_mem_nil _) id
  | @drop now log s shell v₀ rest _ _ hm ih =>
    have ih := ih (ho.mono (List.subset_cons_self ..))
    refine ⟨List.forall_mem_nil _, fun {k v} hk he => ?_⟩
    have hk : (v₀ :: rest)[k + 1]? = some v := hk
    exact (ih.mailbox (hm ▸ hk) he).append [_] fun h => absurd h.left (Nat.succ_ne_zero k)
  | @commit now _ _ _ q _ step _ _ _ hc hp _ _ hm ih =>
    obtain ⟨hr, hbox⟩ := (ih (ho.mono fun x hx => by simp [hx])).planned hc.fresh hp
    refine .of_append hm (fun v hv => ho.arrived (t := now) (by simp [hv])) (fun e he => ?_)
      fun k v hk he => (hbox k v hk he).append (_ :: _) False.elim
    cases (List.mem_append.mp he)
    case inl he => exact hr e he
    case inr he => exact ho.raised List.mem_cons_self he
  | @refuse now _ _ _ _ _ _ _ _ _ _ hc hp _ _ hm ih =>
    obtain ⟨_, hbox⟩ := (ih (ho.mono fun x hx => by simp [hx])).planned hc.fresh hp
    exact .of_append hm (fun v hv => ho.arrived (t := now) (by simp [hv])) (List.forall_mem_nil _)
      fun k v hk he => (hbox k v hk he).append (_ :: _) False.elim
  | @skip _ _ p _ _ _ _ hr _ ih =>
    have ih := ih ho
    refine ih.spared [] (by simp) (List.append_nil _).symm (by simp) (fun e he => ih.raised e ?_) id
    exact show e ∈ p.raised from hr ▸ List.mem_cons_of_mem _ he
  | rest _ ih =>
    exact (ih ho).spared [] (by simp) (List.append_nil _).symm (by simp)
      (List.forall_mem_nil _) False.elim
  | deliver _ _ _ _ ih => exact (ih (ho.mono (List.subset_cons_self ..))).delivered rfl
  | @resume now _ _ _ _ _ _ _ _ _ _ hc hr _ _ _ hm ih =>
    obtain ⟨hn, _⟩ := resumption_ok hr
    obtain ⟨_, _, hl⟩ := hc.fresh hn
    have ih := ih (ho.mono fun x hx => by simp [hx])
    exact .of_append hm (fun v hv => ho.arrived (t := now) (by simp [hv])) (List.forall_mem_nil _)
      fun k v hk he => absurd (ih.mailbox hk he) (Log.Delivered.not_of_arrivals hl)
  | @halt now _ _ _ _ vs _ _ hh ih =>
    refine (ih (ho.mono fun x hx => by simp [hx])).spared ((now, .halted) :: Log.arrivals now vs)
      ?_ hh.mailbox (fun v hv => ho.arrived (t := now) (by simp [hv])) (List.forall_mem_nil _) id
    exact List.forall_mem_cons.mpr ⟨Happening.Spares.of_nil rfl rfl, Log.arrivals_spare⟩

-- A transition that listens for an event of that name is only taken while its node is active, and
-- for an event from the mailbox.
theorem delivered {hap : List (Happening C)} {q : Progress (Shell C A) C} {us : List Transition}
    {step : Microstep C} {u : Transition} (wf : m.tree.WellFormed) (h : Course m now log stage)
    (hq : Queued n name log stage) (hp : Plans m stage hap q us step) (hu : u ∈ us)
    (hon : u.on = .exact name) : u.source ∈ stage.state.configuration ∧
      ∃ first, log.Delivered n name first := by
  have hsel {e : Event} {eventless : Bool} (hs : (Macrostep.selection m.tree m.registry m.config
      stage.state e eventless).result = .ok us) :
      u.source ∈ stage.state.configuration ∧ eventless = false ∧ e.name = name := by
    have hc := h.legal_of_selection (List.ne_nil_of_mem hu) hs
    have ⟨hl, hact⟩ := mem_of_select wf ((Configuration.isLegal_iff wf).mp hc) hs hu
    have hl := Selection.listens_of_candidates hl
    cases eventless <;>
      simp_all [Descriptor.isExact, Descriptor.isWildcard, Descriptor.isEventless]
  cases hp with
  | start => simp at hu
  | event hr hm hs =>
    obtain ⟨hact, _, he⟩ := hsel hs
    exact ⟨hact, _, hq.mailbox (k := 0) (by simp [Stage.shell, hm]) he⟩
  | round ho =>
    cases ho with
    | always _ _ hs =>
      obtain ⟨_, hf, _⟩ := hsel hs
      contradiction
    | raised _ hr hs =>
      obtain ⟨_, _, he⟩ := hsel hs
      exact absurd he (hq.raised _ (show _ ∈ Progress.raised _ from hr ▸ List.mem_cons_self))

end Course

namespace Definition

-- A node sends the timers of its transitions on entry.
theorem State.timer_mem_entry {root : State} {machineId : String} {t : Tree} {delay : Delay}
    {spec : TransitionSpec} (hb : root.build machineId = .ok t)
    (hd : (.after delay, spec) ∈ ((Layout.ofState machineId root).placed n).spec.transitions) :
    timerSend (t.node n).id delay ∈ (t.node n).entry := by
  have hn : n < (Layout.ofState machineId root).size := by
    by_contra hn
    rw [Layout.placed_of_size_le (not_lt.mp hn)] at hd
    contradiction
  have ⟨_, ht⟩ := State.build_eq_ok hb
  rw [ht, Layout.node_lower hn]
  refine List.mem_append_right _ (List.mem_map_of_mem ?_)
  exact List.mem_filterMap.mpr ⟨_, hd, rfl⟩

end Definition

namespace Course

variable {root : Definition.State} {machineId : String} {spec : Definition.TransitionSpec}
  {t : Duration} {x : Happening C} {earlier : Log C} {u : Transition}

-- When a transition is taken that is declared `after d`, its timer was due at some `t₀`. The node
-- has been active for `d`, since before the timer was set, unless something was waiting in the
-- mailbox at `t₀`: then it may have been entered again since.
theorem after_taken (hb : root.build machineId = .ok m.tree)
    (hd : (.after (.fixed d), spec) ∈
      ((Definition.Layout.ofState machineId root).placed u.source).spec.transitions)
    (hname : name = Definition.timerName (m.tree.node u.source).id (.fixed d))
    (hon : u.on = .exact name) (h : Course m now log stage) (hx : (t, x) :: earlier <:+ log)
    (hu : u ∈ x.transitions) (ho : earlier.OnlyTimer u.source name d) :
    ∃ since t₀ p waiting before τ, earlier = since ++ (t₀, .delivered p waiting) :: before ∧
      Log.Armed u.source name d p before ∧ p.deadline ≤ t₀ ∧ t₀ ≤ t ∧
      earlier.activeSince? u.source = some τ ∧
      ((∀ y ∈ since, y.2.Spares u.source) ∧ τ.nanos + d.nanos ≤ p.deadline.nanos ∨
        waiting ≠ [] ∧ t₀ ≤ τ) := by
  have wf := Definition.State.build_wellFormed hb
  have hentry := Definition.State.timer_mem_entry hb hd
  rw [Definition.timerSend, ← hname] at hentry
  have ⟨huntil, _⟩ := h.until_now.of_suffix hx
  cases h.origin hx with
  | delivered => simp [Happening.transitions] at hu
  | idle hi => simp [hi.transitions] at hu
  | @planned log hap q us step vs _ stage hc hp he =>
    have hu : u ∈ us := by rcases he with rfl | rfl <;> exact hu
    have ho := ho.mono (List.subset_append_right ..)
    have ⟨hact, _, since, t₀, p, waiting, before, hlog, hpe, hw⟩ :=
      delivered wf hc (hc.queued ho) hp hu hon
    have hbefore : (t₀, .delivered p waiting) :: before <:+ log := ⟨since, hlog.symm⟩
    have ⟨harmed, hdue⟩ := hc.armed_of_delivered wf hentry hbefore
      (ho.mono ((List.suffix_cons ..).trans hbefore).subset) hpe
    have ⟨τ, hτ⟩ := Option.isSome_iff_exists.mp ((hc.timed wf hentry ho).entered.mp hact)
    have hspared : ∀ y ∈ Log.arrivals t vs ++ hap.map (t, ·), y.2.Spares u.source := hp.spared vs
    rw [← Log.activeSince?_append hspared] at hτ
    rw [hlog, ← List.append_assoc] at huntil hτ ⊢
    have ⟨_, ht⟩ := huntil.of_suffix (List.suffix_append ..)
    refine ⟨_, t₀, p, waiting, before, τ, rfl, harmed, hdue, ht, hτ, ?_⟩
    rcases harmed.since_delivery huntil hτ with hs | ⟨⟨y, hy, hn⟩, hle⟩
    · exact .inl hs
    · refine .inr ⟨fun hwait => hn ?_, hle⟩
      have ⟨_, hs⟩ := hw hwait
      exact (List.mem_append.mp hy).elim (hspared y) (hs y)

section Fuse

open Interpreter (fuse fuseTree fuse_build fuseMachine fuseEnv fuseTimer fuseWaiting fuse_initial)

variable {s : Shell Unit (Actor (Child Unit 0))} {rest : List Envelope} {log : Log Unit}
  {t : Duration}

def fuseLit : MachineState Unit where
  configuration := .ofList [0, 1]
  context := ()
  history := ∅

abbrev FuseOnly (log : Log Unit) : Prop :=
  log.OnlyTimer 1 fuseTimer.event.name (.ofMillis 1000)

theorem FuseOnly.cons {x : Happening Unit} (hl : FuseOnly log)
    (harr : ∀ v, x = .arrived v → v.event.name ≠ fuseTimer.event.name) (hr : x.raised = [])
    (ha : ∀ a ∈ x.actions, a.sent? = none ∨ a = .timer 1 fuseTimer.event.name (.ofMillis 1000)) :
    FuseOnly ((t, x) :: log) :=
  Log.OnlyTimer.cons hl harr (by simp [hr]) fun a hmem _ hs _ =>
    (ha a hmem).resolve_left (by simp [hs])

theorem fuse_lit : ∃ first : Microstep Unit, first.entered = [0, 1] ∧
    FuseOnly [(.zero, .committed .init [] first)] ∧
    Course fuseMachine .zero [(.zero, .committed .init [] first)] (.resting fuseLit
      ({ id := "m", status := .running, scheduler := fuseWaiting } :
        Shell Unit (Actor (Child Unit 0)))) := by
  have ⟨m, hm, hc, hd, he, ha, hr⟩ := fuse_initial
  have ho : FuseOnly [(.zero, .committed .init [] m)] :=
    .cons .nil nofun hr fun a (hmem : a ∈ m.actions) => .inr (List.mem_singleton.mp (ha ▸ hmem))
  refine ⟨m, he, ho, ?_⟩
  have h : Course fuseMachine .zero [] (.resting (.unstarted ())
    ({ id := "m" } : Shell Unit (Actor (Child Unit 0)))) := .new rfl rfl rfl rfl
  have hcommit : (Interpreter.commit fuseEnv fuseMachine.registry
      ({ id := "m", status := .running } : Shell Unit (Actor (Child Unit 0))) m .init).outcome =
      .ok ({ id := "m", status := .running, scheduler := fuseWaiting }, none) := by
    rw [Interpreter.commit, ha]
    rfl
  have hs : (MachineState.unstarted ()).after m = fuseLit := by
    simp [MachineState.after, MachineState.unstarted, fuseLit, hc, hd,
      (Microstep.initial_eq_ok hm).right]
  exact hs ▸ (h.commit (.start rfl hm) rfl hcommit (List.append_nil _).symm).rest

-- Lighting it anew sets the timer anew.
theorem fuse_relit (h : Course fuseMachine (.ofMillis 1000) log (.resting fuseLit s))
    (ho : FuseOnly log) (hr : s.status = .running)
    (hm : s.mailbox = { event := ⟨"RELIGHT", .null⟩ } :: rest) :
    ∃ (log' : Log Unit) (s' : Shell Unit (Actor (Child Unit 0))),
      log'.activeSince? 1 = some (.ofMillis 1000) ∧ FuseOnly log' ∧ s'.status = .running ∧
        s'.mailbox = rest ∧ Course fuseMachine (.ofMillis 1000) log' (.resting fuseLit s') := by
  obtain ⟨m, hm', hc, hh, hd, he, hraised, ha⟩ : ∃ m, Microstep.take fuseMachine.tree
      fuseMachine.registry ⟨"RELIGHT", .null⟩ (.ofList [0, 1]) () ∅
      [(fuseTree.node 1).transitions[1]!] = .ok m ∧ m.configuration = .ofList [0, 1] ∧
        m.history = ∅ ∧ m.done = false ∧ m.entered = [1] ∧ m.raised = [] ∧
        m.actions = [.cancel fuseTimer.event.name, .cancelOwned 1,
          .timer 1 fuseTimer.event.name (.ofMillis 1000)] :=
    Microstep.exists_eq_ok (by decide +kernel)
  obtain ⟨s', hcommit, hr', hrest⟩ : ∃ s', (Interpreter.commit { now := .ofMillis 1000 }
      fuseMachine.registry { s with mailbox := rest } m ⟨"RELIGHT", .null⟩).outcome =
        .ok (s', none) ∧ s'.status = .running ∧ s'.mailbox = rest := by
    refine ⟨{ s with
      mailbox := rest
      scheduler := ((s.scheduler.cancelId fuseTimer.event.name).cancelOwner 1).schedule
        { fuseTimer with deadline := .ofMillis 2000 } }, ?_, hr, rfl⟩
    rw [Interpreter.commit, ha]
    rfl
  have hs : fuseLit.after m = fuseLit := by
    simp [MachineState.after, fuseLit, hc, hd, hh]
  have hsel : (Macrostep.selection fuseMachine.tree fuseMachine.registry fuseMachine.config fuseLit
      ⟨"RELIGHT", .null⟩ false).result = .ok [(fuseTree.node 1).transitions[1]!] :=
    Evaluation.eq_ok_of_toOption (by decide +kernel)
  have hcourse : Course fuseMachine _ _ (.resting (fuseLit.after m) s') :=
    (h.commit (.event hr hm hsel (by simp) hm') rfl hcommit
      (hrest.trans (List.append_nil _).symm)).rest
  rw [hs] at hcourse
  refine ⟨_, s', ?_, ?_, hr', hrest, hcourse⟩
  case refine_1 => simp [Log.activeSince?_cons, Happening.entered, he]
  case refine_2 =>
    exact .cons (.cons ho (by simp) rfl (List.forall_mem_nil _)) (by simp) hraised
      (by simp [Happening.actions, ha, Planned.sent?])

-- When the timer comes the fuse goes off.
theorem fuse_off (h : Course fuseMachine (.ofMillis 1000) log (.resting fuseLit s))
    (ho : FuseOnly log) (hr : s.status = .running)
    (hm : s.mailbox = { event := fuseTimer.event } :: rest) :
    ∃ (x : Happening Unit) (stage : Stage Unit (Actor (Child Unit 0))),
      let earlier := (.ofMillis 1000, .taken { event := fuseTimer.event }) :: log
      x.transitions = [(fuseTree.node 1).transitions[2]!] ∧ FuseOnly earlier ∧
        Course fuseMachine (.ofMillis 1000) ((.ofMillis 1000, x) :: earlier) stage := by
  have ⟨m, hm', ha⟩ : ∃ m, Microstep.take fuseMachine.tree fuseMachine.registry
      fuseTimer.event (.ofList [0, 1]) () ∅ [(fuseTree.node 1).transitions[2]!] = .ok m ∧
        m.actions = [.cancel fuseTimer.event.name, .cancelOwned 1] :=
    Microstep.exists_eq_ok (by decide +kernel)
  have hcommit : (Interpreter.commit { now := .ofMillis 1000 } fuseMachine.registry
      { s with mailbox := rest } m fuseTimer.event).outcome = .ok ({ s with
        mailbox := rest
        scheduler := (s.scheduler.cancelId fuseTimer.event.name).cancelOwner 1 }, none) := by
    rw [Interpreter.commit, ha]
    rfl
  have hsel : (Macrostep.selection fuseMachine.tree fuseMachine.registry fuseMachine.config fuseLit
      fuseTimer.event false).result = .ok [(fuseTree.node 1).transitions[2]!] :=
    Evaluation.eq_ok_of_toOption (by decide +kernel)
  exact ⟨_, _, rfl, .cons ho nofun rfl nofun,
    h.commit (.event hr hm hsel (by simp) hm') rfl hcommit (List.append_nil _).symm⟩

theorem fuse_declared : (.after (.fixed (.ofMillis 1000)), { targets := ["off"] }) ∈
    ((Definition.Layout.ofState "m" fuse).placed
      (fuseTree.node 1).transitions[2]!.source).spec.transitions := by
  decide +kernel

theorem fuse_name : fuseTimer.event.name = Definition.timerName (fuseMachine.tree.node
    (fuseTree.node 1).transitions[2]!.source).id (.fixed (.ofMillis 1000)) := by
  decide +kernel

theorem fuse_on : (fuseTree.node 1).transitions[2]!.on = .exact fuseTimer.event.name := by
  decide +kernel

theorem fuse_source : (fuseTree.node 1).transitions[2]!.source = 1 := by
  decide +kernel

-- Where nothing is waiting, the fuse goes off a second after it was lit.
theorem after_taken_fuse : ∃ (x : Happening Unit) (earlier : Log Unit)
    (stage : Stage Unit (Actor (Child Unit 0))) (τ : Duration),
    Course fuseMachine (.ofMillis 1000) ((.ofMillis 1000, x) :: earlier) stage ∧
      x.transitions = [(fuseTree.node 1).transitions[2]!] ∧ earlier.activeSince? 1 = some τ ∧
      τ.nanos + (Duration.ofMillis 1000).nanos ≤ (Duration.ofMillis 1000).nanos := by
  have ⟨first, _, ho, h⟩ := fuse_lit
  have h := (h.wait (show Duration.zero ≤ .ofMillis 1000 by decide)).deliver rfl rfl (by decide)
  have ⟨x, stage, hx, ho, h⟩ := fuse_off h (.cons ho nofun rfl nofun) rfl rfl
  have ⟨since, t₀, p, waiting, before, τ, hlog, _, hdue, ht, hτ, hs⟩ := after_taken fuse_build
    fuse_declared fuse_name fuse_on h (List.suffix_refl _) (hx ▸ List.mem_cons_self)
    (by rw [fuse_source]; exact ho)
  rw [fuse_source] at hτ
  refine ⟨x, _, stage, τ, h, hx, hτ, ?_⟩
  have hw : waiting = [] := by
    have hmem : (t₀, .delivered p waiting) ∈ since ++ (t₀, .delivered p waiting) :: before :=
      List.mem_append_right _ List.mem_cons_self
    rw [← hlog] at hmem
    simp only [List.mem_cons, Prod.mk.injEq, reduceCtorEq, and_false, Happening.delivered.injEq,
      List.not_mem_nil, or_false, false_or] at hmem
    exact hmem.right.right
  have ⟨_, hle⟩ := hs.resolve_right fun h => h.left hw
  exact Nat.le_trans hle (Nat.le_trans hdue ht)

-- The fuse goes off as soon as it is lit anew, if that was asked for before the timer was due.
theorem exists_timer_overtaken : ¬ ∀ (root : Definition.State) (machineId : String)
    (m : NestedMachine Unit 0) (d now t : Duration) (spec : Definition.TransitionSpec)
    (log earlier : Log Unit) (stage : Stage Unit (Actor (Child Unit 0))) (x : Happening Unit)
    (u : Transition) (name : String), root.build machineId = .ok m.tree →
      (.after (.fixed d), spec) ∈
        ((Definition.Layout.ofState machineId root).placed u.source).spec.transitions →
      name = Definition.timerName (m.tree.node u.source).id (.fixed d) → u.on = .exact name →
      Course m now log stage → (t, x) :: earlier <:+ log → u ∈ x.transitions →
      earlier.OnlyTimer u.source name d →
      ∃ τ, earlier.activeSince? u.source = some τ ∧ τ.nanos + d.nanos ≤ t.nanos := by
  intro hall
  have ⟨first, _, ho, h⟩ := fuse_lit
  have hreceives : Shell.Receives
      ({ id := "m", status := .running, scheduler := fuseWaiting } :
        Shell Unit (Actor (Child Unit 0))) [{ event := ⟨"RELIGHT", .null⟩ }]
      { id := "m", status := .running, scheduler := fuseWaiting,
        mailbox := [{ event := ⟨"RELIGHT", .null⟩ }] } := ⟨rfl, rfl, rfl⟩
  have h := ((h.arrive hreceives).wait (show Duration.zero ≤ .ofMillis 1000 by decide)).deliver
    rfl rfl (by decide)
  have ho : FuseOnly ((.zero, .arrived { event := ⟨"RELIGHT", .null⟩ }) :: _) :=
    .cons ho (fun v hv => by cases hv; decide) rfl nofun
  have ⟨log', s, hsince, ho, hr, hm, h⟩ := fuse_relit h (.cons ho nofun rfl nofun) rfl rfl
  have ⟨x, stage, hx, ho, h⟩ := fuse_off h ho hr hm
  have ⟨τ, hτ, hle⟩ := hall fuse "m" fuseMachine (.ofMillis 1000) _ _ _ _ _ stage x _ _ fuse_build
    fuse_declared fuse_name fuse_on h (List.suffix_refl _) (hx ▸ List.mem_cons_self)
    (by rw [fuse_source]; exact ho)
  simp only [fuse_source, Log.activeSince?_cons, Happening.entered, Happening.exited,
    List.not_mem_nil, if_false, hsince, Option.some.injEq] at hτ
  subst hτ
  contradiction

end Fuse

end Course

end Statechart
