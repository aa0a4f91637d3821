import Statechart.Proofs.Delivery
import Statechart.Proofs.Locality
import Statechart.Proofs.Operations

-- A delayed event belongs to a node, whose exit is meant to cancel it: which nodes these are, and
-- whether they are active as long as the event is pending.

namespace Statechart

namespace Planned

variable {now : Duration} {a : Planned} {e : Scheduled} {n : NodeIndex}

def owner? : Planned → Option NodeIndex
  | .send _ _ _ _ owner => some owner
  | _ => none

-- If the action sends an event, the event belongs to `n`.
def SentFor (a : Planned) (n : NodeIndex) : Prop := ∀ k, a.owner? = some k → k = n

theorem SentFor.owner (h : a.SentFor n) (he : a.scheduled? now = some e) : e.owner = n := by
  cases a with
  | send event target delay id owner =>
    cases delay with
    | none => contradiction
    | some delay =>
      obtain ⟨_, _, rfl⟩ := Option.map_eq_some_iff.mp he
      exact h owner rfl
  | _ => contradiction

end Planned

namespace Plan

variable {C S : Type} {t : Tree} {r : Registry C S} {e : Event} {p q : Plan C}
  {owner n : NodeIndex} {a : Action} {x : Planned}

theorem sentFor_of_foldlM {ε α : Type} {f : Plan C → α → Except ε (Plan C)} {l : List α}
    (owner : α → NodeIndex) (hf : ∀ p a q, f p a = .ok q → x ∈ q.actions →
      x ∈ p.actions ∨ x.SentFor (owner a))
    (h : l.foldlM f p = .ok q) (hx : x ∈ q.actions) :
    x ∈ p.actions ∨ ∃ a ∈ l, x.SentFor (owner a) := by
  refine foldlM_keeps (I := fun q => x ∈ q.actions →
    x ∈ p.actions ∨ ∃ a ∈ l, x.SentFor (owner a)) (fun q a ha q' hq h hx => ?_) .inl h hx
  exact (hf q a q' h hx).elim hq fun hx => .inr ⟨a, ha, hx⟩

theorem sentFor_of_add (h : add r e owner p a = .ok q) (hx : x ∈ q.actions) :
    x ∈ p.actions ∨ x.SentFor owner := by
  have hpush {y : Planned} (hx : x ∈ (p.push y).actions) (hy : y.SentFor owner) :
      x ∈ p.actions ∨ x.SentFor owner := by
    refine (List.mem_append.mp hx).imp_right fun hx => ?_
    obtain rfl := List.mem_singleton.mp hx
    exact hy
  cases a with
  | named name =>
    simp only [add] at h
    split at h
    · cases h
      exact .inl hx
    · cases h
      exact hpush hx fun _ hk => by cases hk
    · contradiction
  | raise =>
    cases h
    exact .inl hx
  | send s =>
    obtain ⟨_, _, h⟩ := Microstep.bind_eq_ok.mp h
    cases h
    exact hpush hx fun k hk => (Option.some.inj hk).symm
  | _ =>
    cases h
    exact hpush hx fun _ hk => by cases hk

theorem sentFor_of_addAll {actions : List Action} (h : addAll r e owner p actions = .ok q)
    (hx : x ∈ q.actions) : x ∈ p.actions ∨ x.SentFor owner :=
  (sentFor_of_foldlM (fun _ => owner) (fun _ _ _ => sentFor_of_add) h hx).imp_right
    fun ⟨_, _, hx⟩ => hx

theorem sentFor_of_exit (h : exit r e t p n = .ok q) (hx : x ∈ q.actions) :
    x ∈ p.actions ∨ x.SentFor Tree.root := by
  have ⟨p₁, h₁, h⟩ := Microstep.bind_eq_ok.mp h
  cases h
  rcases List.mem_append.mp hx with hx | hx
  · rcases List.mem_append.mp hx with hx | hx
    · exact sentFor_of_addAll h₁ hx
    · obtain ⟨_, _, rfl⟩ := List.mem_map.mp hx
      exact .inr nofun
  · obtain rfl := List.mem_singleton.mp hx
    exact .inr nofun

theorem sentFor_of_invoke (hx : x ∈ (p.invoke t n).actions) : x ∈ p.actions ∨ x.SentFor n := by
  refine (List.mem_append.mp hx).imp_right fun hx => ?_
  obtain ⟨_, _, rfl⟩ := List.mem_map.mp hx
  exact nofun

theorem sentFor_of_enter (h : enter r e t p n = .ok q) (hx : x ∈ q.actions) :
    x ∈ p.actions ∨ x.SentFor n := by
  have ⟨p₁, h₁, h⟩ := Microstep.bind_eq_ok.mp h
  cases h
  exact (sentFor_of_invoke hx).elim (sentFor_of_addAll h₁) .inr

theorem sentFor_of_resume (h : resume r e t p n = .ok q) (hx : x ∈ q.actions) :
    x ∈ p.actions ∨ x.SentFor n := by
  have ⟨p₁, h₁, h⟩ := Microstep.bind_eq_ok.mp h
  cases h
  exact (sentFor_of_invoke hx).elim (sentFor_of_addAll h₁) .inr

end Plan

namespace Microstep

variable {C S : Type} {t : Tree} {r : Registry C S} {e : Event} {c : Configuration} {x : C}
  {h : History} {us : List Transition} {m : Microstep C} {a : Planned}

theorem sentFor_of_arrive {p q : Plan C} {ns : List NodeIndex}
    (hq : ns.foldlM (enterNode t r e) p = .ok q) (ha : a ∈ q.actions) :
    a ∈ p.actions ∨ ∃ n ∈ ns, a.SentFor n := by
  refine Plan.sentFor_of_foldlM id (fun p n q hq ha => ?_) hq ha
  have ⟨q', hq', hq⟩ := bind_eq_ok.mp hq
  cases hq
  exact Plan.sentFor_of_enter hq' ha

-- What is sent on exit belongs to the root, what a transition sends to its domain or, if it has
-- no target, to its source, and what is sent on entry to the entered node.
theorem sentFor_of_take (hm : take t r e c x h us = .ok m) (ha : a ∈ m.actions) :
    a.SentFor Tree.root ∨
    (a ∈ m.transitionActions ∧ ∃ u ∈ us, a.SentFor ((t.domain u).getD u.source)) ∨
    ∃ n ∈ m.entered, a.SentFor n := by
  obtain ⟨_, p, q, s, hparts, rfl⟩ := take_eq_ok_iff.mp hm
  rcases List.mem_append.mp ha with ha | ha
  · rcases List.mem_append.mp ha with ha | ha
    · have ⟨_, _, ha⟩ := (Plan.sentFor_of_foldlM (fun _ => Tree.root)
        (fun _ _ _ => Plan.sentFor_of_exit) hparts.exits ha).resolve_left List.not_mem_nil
      exact .inl ha
    · have hu := (Plan.sentFor_of_foldlM (fun u => (t.domain u).getD u.source)
        (fun _ _ _ => Plan.sentFor_of_addAll) hparts.transitions ha).resolve_left List.not_mem_nil
      exact .inr (.inl ⟨ha, hu⟩)
  · exact .inr (.inr ((sentFor_of_arrive hparts.entries ha).resolve_left List.not_mem_nil))

theorem sentFor_of_initial (hm : initial t r e x h = .ok m) (ha : a ∈ m.actions) :
    ∃ n ∈ m.entered, a.SentFor n := by
  obtain ⟨_, s, hs, rfl⟩ := enter_eq_ok_iff.mp hm
  exact (sentFor_of_arrive hs ha).resolve_left List.not_mem_nil

theorem sentFor_of_resume (wf : t.WellFormed) {actions : List Planned}
    (hm : resume t r e c x = .ok actions) (ha : a ∈ actions) : ∃ n ∈ c, a.SentFor n := by
  have ⟨p, hp, hm⟩ := bind_eq_ok.mp hm
  cases hm
  have ⟨n, hn, ha⟩ := (Plan.sentFor_of_foldlM id
    (fun _ _ _ => Plan.sentFor_of_resume) hp ha).resolve_left List.not_mem_nil
  exact ⟨n, by simpa [wf.mem_shallowestFirst, ← SortedSet.mem_iff] using hn, ha⟩

end Microstep

namespace Log

variable {C : Type} {log log' : Log C} {p : Pending}

-- No action has failed.
def Unrefused (log : Log C) : Prop := ∀ t e us m, (t, .refused e us m) ∉ log

theorem Unrefused.mono (h : log'.Unrefused) (hl : log ⊆ log') : log.Unrefused :=
  fun _ _ _ _ hm => h _ _ _ _ (hl hm)

-- The event was sent by a transition without a target, while another one left the node that the
-- two have in common. The node was not active since.
def Orphaned (p : Pending) (log : Log C) : Prop :=
  ∃ since now before e us step u a, log = since ++ (now, .committed e us step) :: before ∧
    (∀ y ∈ since, y.2.Spares p.owner) ∧ u ∈ us ∧ u.isTargetless = true ∧ u.source = p.owner ∧
    p.owner ∈ step.exited ∧ a ∈ step.transitionActions ∧ a.scheduled? now = some p.toScheduled

theorem Orphaned.append (h : log.Orphaned p) (log' : Log C) (hl : ∀ x ∈ log', x.2.Spares p.owner) :
    (log' ++ log).Orphaned p := by
  obtain ⟨since, now, before, e, us, step, u, a, rfl, hs, h⟩ := h
  exact ⟨log' ++ since, now, before, e, us, step, u, a, by simp,
    List.forall_mem_append.mpr ⟨hl, hs⟩, h⟩

end Log

namespace Course

variable {C S A : Type} [ActorModel C S A] {m : Machine C S} {now : Duration} {log : Log C}
  {stage : Stage C A} {hap : List (Happening C)} {q : Progress (Shell C A) C}
  {us : List Transition} {step : Microstep C} {p : Pending} {a : Planned}

-- What a microstep sends belongs to a node that is active after it, unless a transition without a
-- target sends it from a node that is left.
theorem sent (wf : m.tree.WellFormed) (h : Course m now log stage)
    (hp : Plans m stage hap q us step) (ha : a ∈ step.actions)
    (hs : a.scheduled? now = some p.toScheduled) : p.owner ∈ step.configuration ∨
      a ∈ step.transitionActions ∧ ∃ u ∈ us, u.isTargetless = true ∧ u.source = p.owner ∧
        p.owner ∈ step.exited := by
  have hmem (n : NodeIndex) := h.mem_configuration (n := n) wf hp
  rcases hp.taken with ⟨_, _, hm⟩ | ⟨hus, ⟨_, hsel⟩, hm⟩
  · obtain ⟨n, hn, ha⟩ := Microstep.sentFor_of_initial hm ha
    exact .inl (ha.owner hs ▸ (hmem n).mpr (.inl hn))
  have hc := (Configuration.isLegal_iff wf).mp (h.legal_of_selection hus hsel)
  have hselected := select_selected wf hc hsel
  rcases Microstep.sentFor_of_take hm ha with ha | ⟨hat, u, hu, ha⟩ | ⟨n, hn, ha⟩
  · exact .inl (ha.owner hs ▸ ((Configuration.isLegal_iff wf).mp hp.isLegal).root)
  · have ho := ha.owner hs
    cases hd : m.tree.domain u with
    | none =>
      rw [hd] at ho
      by_cases hx : p.owner ∈ step.exited
      case pos => exact .inr ⟨hat, u, hu, Tree.domain_eq_none.mp hd, ho.symm, hx⟩
      case neg =>
        have ⟨_, hact⟩ := mem_of_select wf hc hsel hu
        exact .inl ((hmem _).mpr (.inr ⟨ho ▸ hact, hx⟩))
    | some d =>
      rw [hd] at ho
      refine .inl ((hmem _).mpr (.inr ⟨ho ▸ hselected.active hu hd, fun hx => ?_⟩))
      rw [(Microstep.take_lists hm).left, Microstep.mem_exitedBy wf] at hx
      have ⟨_, v, hv, hx⟩ := hx
      have hr := hselected.domain_remains wf hc hu hv hd
      simp [ho, hr] at hx
  · exact .inl (ha.owner hs ▸ (hmem n).mpr (.inl hn))

-- A microstep cancels what belongs to the nodes it exits before it sends anything.
theorem owned_of_commit {env : Env} {shell : Shell C A} (wf : m.tree.WellFormed)
    (h : Course m now log stage) (hp : Plans m stage hap q us step) (hn : env.now = now)
    (hc : (Interpreter.commit env m.registry q.shell step q.current).outcome = .ok (shell, none))
    (ih : ∀ p ∈ stage.shell.scheduler.queue,
      p.owner ∈ stage.state.configuration ∨ log.Orphaned p)
    (vs : List Envelope) (hq : p ∈ shell.scheduler.queue) :
    p.owner ∈ step.configuration ∨ Log.Orphaned p ((now, .committed q.current us step) ::
      (Log.arrivals now vs ++ hap.map (now, ·) ++ log)) := by
  rw [(Shell.performAll_ok hc).scheduler, hp.scheduler] at hq
  rcases Scheduler.mem_afterAll.mp hq with ⟨hq, hends⟩ | ⟨before, a, later, hl, ⟨e, ha, rfl⟩, _⟩
  case inl =>
    have hx : p.owner ∉ step.exited := fun hx => by
      simpa [Planned.endsTimer] using hends _ (hp.mem_cancels hx)
    by_cases he : p.owner ∈ step.entered
    case pos => exact .inl ((h.mem_configuration wf hp).mpr (.inl he))
    case neg =>
      rcases ih p hq with hact | ho
      · exact .inl ((h.mem_configuration wf hp).mpr (.inr ⟨hact, hx⟩))
      · exact .inr (ho.append (_ :: (Log.arrivals now vs ++ hap.map (now, ·)))
          (List.forall_mem_cons.mpr ⟨⟨he, hx⟩, hp.spared vs⟩))
  case inr =>
    rw [hn] at ha
    have hmem : a ∈ step.actions := by simp [hl]
    refine (h.sent wf hp hmem ha).imp_right ?_
    rintro ⟨hat, u, hu, ht, hsrc, hx⟩
    exact ⟨[], now, _, _, us, step, u, a, rfl, by simp, hu, ht, hsrc, hx, hat, ha⟩

theorem owned (wf : m.tree.WellFormed) (h : Course m now log stage) (hl : log.Unrefused)
    (hq : p ∈ stage.shell.scheduler.queue) :
    p.owner ∈ stage.state.configuration ∨ log.Orphaned p := by
  induction h generalizing p with
  | new _ _ hn _ => simp [Stage.shell, hn] at hq
  | wait _ _ ih => exact ih hl hq
  | arrive _ hr ih =>
    have hq := hr.scheduler ▸ hq
    exact (ih (hl.mono (List.subset_append_right ..)) hq).imp_right (·.append _ Log.arrivals_spare)
  | drop _ _ _ ih =>
    exact (ih (hl.mono (List.subset_cons_self ..)) hq).imp_right
      (·.append [_] (by simpa using .of_nil rfl rfl))
  | commit hc hp hn hcommit _ ih =>
    have hl := hl.mono (List.subset_cons_of_subset _ (List.subset_append_right ..))
    exact owned_of_commit wf hc hp hn hcommit (fun _ => ih hl) _ hq
  | refuse => exact absurd List.mem_cons_self (hl _ _ _ _)
  | skip _ _ _ _ ih => exact ih hl hq
  | rest _ ih => exact ih hl hq
  | deliver _ _ hs _ ih =>
    have hq := hs ▸ List.mem_cons_of_mem _ hq
    exact (ih (hl.mono (List.subset_cons_self ..)) hq).imp_right
      (·.append [_] (by simpa using .of_nil rfl rfl))
  | @resume _ _ s shell c s' planned actions _ _ _ hc hres hact hn hp _ ih =>
    obtain ⟨hstatus, _⟩ := resumption_ok hres
    rcases (Shell.performEach_obeys hp).queue p hq with hq | ⟨a, ha, hs⟩
    · have hempty := (hc.fresh hstatus).right.left
      simp [hempty] at hq
    · have ha : a ∈ planned := by
        rw [hact] at ha
        split at ha <;> simp_all
      have hr : Microstep.resume m.tree m.registry .init s'.configuration s'.context =
          .ok planned := resume_of_resumption hres
      obtain ⟨n, hmem, ha⟩ := Microstep.sentFor_of_resume wf hr ha
      obtain rfl := ha.owner hs
      exact .inl hmem
  | halt _ hh _ => simp [Stage.shell, hh.queue] at hq

-- As long as no action fails, a delayed event that is pending belongs to an active node, except
-- for one that a transition without a target sent from a node that was just being left.
theorem pending_owned {root : Definition.State} {machineId : String}
    (hb : root.build machineId = .ok m.tree) (h : Course m now log stage)
    (hl : ∀ t e us step, (t, .refused e us step) ∉ log) (hq : p ∈ stage.shell.scheduler.queue) :
    p.owner ∈ stage.state.configuration ∨
      ∃ since t before e us step u a, log = since ++ (t, .committed e us step) :: before ∧
        (∀ y ∈ since, y.2.Spares p.owner) ∧ u ∈ us ∧ u.isTargetless = true ∧
        u.source = p.owner ∧ p.owner ∈ step.exited ∧ a ∈ step.transitionActions ∧
        a.scheduled? t = some p.toScheduled :=
  owned (Definition.State.build_wellFormed hb) h hl hq

-- The timer of the fuse belongs to it while it is lit.
theorem pending_owned_fuse : ∃ (log : Log Unit) (shell : Shell Unit (Actor (Child Unit 0)))
    (p : Pending), Course Interpreter.fuseMachine .zero log (.resting fuseLit shell) ∧
      (∀ t e us step, (t, .refused e us step) ∉ log) ∧ p ∈ shell.scheduler.queue ∧
      p.owner ∈ fuseLit.configuration := by
  obtain ⟨first, _, _, h⟩ := fuse_lit
  refine ⟨_, _, _, h, by simp, List.mem_singleton_self _, ?_⟩
  rcases pending_owned Interpreter.fuse_build h (by simp) (List.mem_singleton_self _) with hact |
    ⟨since, t, before, e, us, step, u, a, hlog, _, hu, _⟩
  · exact hact
  · have hmem : (t, .committed e us step) ∈ [(.zero, Happening.committed .init [] first)] :=
      hlog ▸ List.mem_append_right _ List.mem_cons_self
    obtain ⟨_, _, rfl, _⟩ : t = .zero ∧ e = .init ∧ us = [] ∧ step = first := by
      simpa using hmem
    contradiction

section House

open Interpreter (Runs)

-- Ringing makes the bell chime a second later, and opens the door through which one leaves.
def house : Definition.State :=
  .mk { key := "m", initial := some "home" } [
    .mk { key := "home", shape := .parallel } [
      .mk {
        key := "bell"
        transitions := [(.event "RING", { actions := [.send {
          event := some ⟨"CHIME", .null⟩
          delay := some (.fixed (.ofMillis 1000)) }] })] } [],
      .mk { key := "door", transitions := [(.event "RING", { targets := ["#m.away"] })] } []],
    .mk { key := "away" } []]

def houseTree : Tree := ((Definition.Layout.ofState "m" house).lower "m").value

theorem house_build : house.build "m" = .ok houseTree :=
  Definition.State.build_of_problems (by decide +kernel)

def houseMachine : NestedMachine Unit 0 where
  tree := houseTree
  registry := {}
  context := ()

def houseShell (s : Scheduler) : Shell Unit (Actor (Child Unit 0)) where
  id := "m"
  status := .running
  scheduler := s

def chime : Pending where
  event := ⟨"CHIME", .null⟩
  target := .self
  owner := 2
  id := none
  deadline := .ofMillis 1000
  ticket := 1

theorem house_home : ∃ s : Shell Unit (Actor (Child Unit 0)),
    Runs houseMachine .zero ⟨houseMachine, .plain (.ofList [0, 1, 2, 3]), s⟩ ∧
      (houseShell {}).Noted s ∧ s.lastError = none := by
  obtain ⟨m, hreacts, ha⟩ : ∃ m, Macrostep.Reacts houseMachine.tree houseMachine.registry
      houseMachine.config (.plain ∅) .start m (.plain (.ofList [0, 1, 2, 3])) ∧ m.actions = [] :=
    Macrostep.exists_reacts (by decide +kernel)
  obtain ⟨s, h, hn, herr⟩ := Interpreter.start_of_reacts { now := .zero }
    (i := (Interpreter.new houseMachine : NestedInterpreter Unit 0)) (s := houseShell {}) rfl
    hreacts (by rw [Interpreter.commit, ha]; rfl) ⟨rfl, rfl⟩ rfl
  exact ⟨s, .operate .new (.start h), hn, herr⟩

-- The chime comes although nobody is at home.
theorem house_left : ∃ s : Shell Unit (Actor (Child Unit 0)),
    Runs houseMachine .zero ⟨houseMachine, .plain (.ofList [0, 4]), s⟩ ∧
      s.status = .running ∧ s.lastError = none ∧ s.scheduler.queue = [chime] := by
  obtain ⟨s₀, hrun, hn₀, herr₀⟩ := house_home
  obtain ⟨m, hreacts, ha⟩ : ∃ m, Macrostep.Reacts houseMachine.tree houseMachine.registry
      houseMachine.config (.plain (.ofList [0, 1, 2, 3])) (.event ⟨"RING", .null⟩) m
      (.plain (.ofList [0, 4])) ∧ m.actions = [.cancelOwned 3, .cancelOwned 2, .cancelOwned 1,
        .send chime.event .self (some (.ofMillis 1000)) none 2] :=
    Macrostep.exists_reacts (by decide +kernel)
  have hcommit : (Interpreter.commit { now := .zero } houseMachine.registry s₀ m
      ⟨"RING", .null⟩).outcome =
        .ok ({ s₀ with scheduler := { queue := [chime], lastTicket := 1 } }, none) := by
    have hs : s₀ = { s₀ with scheduler := {} } := by
      have h : {} = s₀.scheduler := hn₀.scheduler.symm
      rw [h]
    rw [Interpreter.commit, ha, hs]
    rfl
  obtain ⟨s, h, hn, herr⟩ := Interpreter.macrostep_of_reacts { now := .zero }
    (i := ⟨houseMachine, .plain (.ofList [0, 1, 2, 3]), s₀⟩) hreacts hcommit
  have hmail : s₀.mailbox = [] := hn₀.mailbox_of_unheard ⟨rfl, rfl⟩
  have hunheard : s₀.Unheard := hn₀.unheard ⟨rfl, rfl⟩
  have hmail' := hn.mailbox_of_unheard ⟨hunheard.listeners, hunheard.errorListeners⟩
  have hsend := Interpreter.send_of_macrostep (by decide) hn₀.status hmail
    (hn₀.actors ▸ List.forall_mem_nil _) h (hmail'.trans hmail)
  exact ⟨s, .operate hrun (.send hsend), hn.status.trans hn₀.status, herr.trans herr₀,
    congrArg Scheduler.queue hn.scheduler⟩

-- A delayed event can be pending although the node that owns it was left.
theorem exists_pending_unowned : ¬ ∀ (root : Definition.State) (machineId : String)
    (m : NestedMachine Unit 0) (now : Duration) (i : NestedInterpreter Unit 0) (p : Pending),
    root.build machineId = .ok m.tree → Runs m now i → i.shell.status = .running →
      i.shell.lastError = none → p ∈ i.shell.scheduler.queue →
      p.owner ∈ i.state.configuration := by
  intro hall
  obtain ⟨s, hrun, hs, herr, hq⟩ := house_left
  have h : chime.owner ∈ SortedSet.ofList [0, 4] :=
    hall house "m" houseMachine .zero _ chime house_build hrun hs herr
      (hq ▸ List.mem_singleton_self _)
  contradiction

end House

end Course

end Statechart
