import Statechart.Proofs.Arising
import Statechart.Proofs.Origin
import Statechart.Proofs.Ownership

-- The invocations that an interpreter runs are those of the active nodes.

namespace Statechart

-- Whether the action starts or stops an actor `id`.
def Action.involves (a : Action) (id : String) : Bool :=
  match a with
  | .spawn _ id' | .stop id' => id' = id
  | _ => false

def Node.actions (n : Node) : List Action := n.entry ++ n.exit ++ n.transitions.flatMap (·.actions)

namespace Tree

def invokes (t : Tree) (n : NodeIndex) (id : String) : Bool :=
  (t.node n).invocations.any fun v => v.id = id

def invocationIds (t : Tree) : List String :=
  t.indices.flatMap fun n => (t.node n).invocations.map (·.id)

-- Different invocations have different ids, and no action starts or stops an actor by one of them.
structure InvokesApart (t : Tree) : Prop where
  distinct : t.invocationIds.Nodup
  reserved : ∀ id ∈ t.invocationIds, ∀ n ∈ t.indices, ∀ a ∈ (t.node n).actions,
    a.involves id = false

variable {t : Tree} {n k : NodeIndex} {id : String} {a : Action}

theorem lt_size_of_invokes (h : t.invokes n id = true) : n < t.size := by
  by_contra hn
  simp [invokes, node_of_size_le (not_lt.mp hn)] at h

theorem mem_invocationIds : id ∈ t.invocationIds ↔ ∃ n, t.invokes n id = true := by
  constructor
  case mp =>
    intro h
    obtain ⟨n, _, h⟩ := List.mem_flatMap.mp h
    obtain ⟨v, hv, rfl⟩ := List.mem_map.mp h
    exact ⟨n, List.any_eq_true.mpr ⟨v, hv, by simp⟩⟩
  case mpr =>
    intro ⟨n, h⟩
    obtain ⟨v, hv, hid⟩ := List.any_eq_true.mp h
    exact List.mem_flatMap.mpr ⟨n, List.mem_range.mpr (lt_size_of_invokes h),
      List.mem_map.mpr ⟨v, hv, of_decide_eq_true hid⟩⟩

namespace InvokesApart

variable (ht : t.InvokesApart)
include ht

theorem eq_of_invokes (hn : t.invokes n id = true) (hk : t.invokes k id = true) : n = k := by
  have hmem {n} (h : t.invokes n id = true) : n ∈ t.indices ∧
      id ∈ (t.node n).invocations.map (·.id) := by
    obtain ⟨v, hv, hid⟩ := List.any_eq_true.mp h
    exact ⟨List.mem_range.mpr (lt_size_of_invokes h),
      List.mem_map.mpr ⟨v, hv, of_decide_eq_true hid⟩⟩
  have hp := (List.nodup_flatMap.mp ht.distinct).right
  have : Std.Symm (Function.onFun List.Disjoint fun n => (t.node n).invocations.map (·.id)) :=
    ⟨fun _ _ h _ hx hy => h hy hx⟩
  by_contra hne
  exact hp.forall (hmem hn).left (hmem hk).left hne (hmem hn).right (hmem hk).right

theorem involves_eq_false (hn : t.invokes n id = true) (ha : a ∈ (t.node k).actions) :
    a.involves id = false := by
  by_cases hk : k < t.size
  case pos => exact ht.reserved id (mem_invocationIds.mpr ⟨n, hn⟩) k (List.mem_range.mpr hk) a ha
  case neg => simp [Node.actions, node_of_size_le (not_lt.mp hk)] at ha

end InvokesApart

end Tree

namespace Planned

def stopsActor (a : Planned) (id : String) : Bool :=
  match a with
  | .stop id' => id' = id
  | _ => false

variable {ids : List String} {id : String} {a : Planned} {actions : List Planned}

theorem endsActor_eq : a.endsActor id = (a.stopsActor id || a.startsActor id) := by
  cases a <;> simp [endsActor, stopsActor, startsActor]

-- Actions that do not start the actor leave it unless one of them ends it.
theorem mem_onIdsAll_of_no_start (hn : ids.Nodup) (h : actions.any (·.startsActor id) = false) :
    id ∈ actions.foldl onIds ids ↔ id ∈ ids ∧ actions.any (·.endsActor id) = false := by
  simp only [mem_onIdsAll hn, List.any_eq_false, Bool.not_eq_true] at h ⊢
  refine or_iff_left ?_
  rintro ⟨before, a, later, rfl, ha, _⟩
  simp [h a (by simp)] at ha

-- Actions that do not stop it leave it, or one of them starts it.
theorem mem_onIdsAll_of_no_stop (hn : ids.Nodup) (h : actions.any (·.stopsActor id) = false) :
    id ∈ actions.foldl onIds ids ↔ id ∈ ids ∨ actions.any (·.startsActor id) = true := by
  induction actions generalizing ids with
  | nil => simp
  | cons a rest ih =>
    rw [List.any_cons, Bool.or_eq_false_iff] at h
    rw [List.foldl_cons, ih (nodup_onIds hn) h.right, mem_onIds hn, endsActor_eq, h.left,
      List.any_cons]
    cases a.startsActor id <;> simp

end Planned

namespace Plan

variable {C S : Type} {t : Tree} {r : Registry C S} {e : Event} {p q : Plan C} {n owner : NodeIndex}
  {a : Action} {actions : List Action} {id : String} {P : Planned → Bool}

-- If each step adds what counts exactly for the members that `g` holds for, a loop does for some
-- of them.
theorem foldlM_any {ε α : Type} {f : Plan C → α → Except ε (Plan C)} {g : α → Bool} {l : List α}
    (hf : ∀ a ∈ l, ∀ p q, f p a = .ok q → q.actions.any P = (p.actions.any P || g a))
    (h : l.foldlM f p = .ok q) : q.actions.any P = (p.actions.any P || l.any g) := by
  induction l generalizing p with
  | nil =>
    cases h
    simp
  | cons a rest ih =>
    obtain ⟨p₁, h₁, h⟩ := Microstep.bind_eq_ok.mp h
    rw [ih (fun a ha => hf a (List.mem_cons_of_mem _ ha)) h, hf a List.mem_cons_self p p₁ h₁,
      List.any_cons, Bool.or_assoc]

variable (hP : ∀ a, P a = true → a.endsActor id = true)
include hP

-- What does not involve an actor neither starts nor stops it.
theorem add_any (ha : a.involves id = false) (h : add r e owner p a = .ok q) :
    q.actions.any P = p.actions.any P := by
  have hpush (x : Planned) (hx : x.endsActor id = false) :
      (p.push x).actions.any P = p.actions.any P := by
    have hx : P x = false := Bool.eq_false_iff.mpr fun h => by simp [hP x h] at hx
    simp [push, hx]
  cases a with
  | named name =>
    simp only [add] at h
    split at h <;> cases h
    · rfl
    · exact hpush _ rfl
  | send s =>
    obtain ⟨_, _, h⟩ := Microstep.bind_eq_ok.mp h
    cases h
    exact hpush _ rfl
  | raise =>
    cases h
    rfl
  | _ =>
    cases h
    exact hpush _ ha

theorem addAll_any (ha : ∀ a ∈ actions, a.involves id = false)
    (h : addAll r e owner p actions = .ok q) : q.actions.any P = p.actions.any P := by
  have hnone : (actions.any fun _ => false) = false := by simp
  rw [foldlM_any (f := add r e owner) (g := fun _ => false)
    (fun a hm p q h => by rw [add_any hP (ha a hm) h, Bool.or_false]) h, hnone, Bool.or_false]

-- A node that is exited only stops its own invocations, and one that is entered starts them.
theorem exit_any (ha : ∀ a ∈ (t.node n).actions, a.involves id = false)
    (h : exit r e t p n = .ok q) : q.actions.any P =
      (p.actions.any P || (t.node n).invocations.any fun v => P (.stop v.id)) := by
  obtain ⟨p₁, h₁, h⟩ := Microstep.bind_eq_ok.mp h
  cases h
  have hown : P (.cancelOwned n) = false := Bool.eq_false_iff.mpr fun h => nomatch hP _ h
  simp [← addAll_any hP (fun a hm => ha a (by simp [Node.actions, hm])) h₁, List.any_append,
    List.any_map, Function.comp_def, hown]

omit hP in
theorem invoke_any : (p.invoke t n).actions.any P = (p.actions.any P ||
    (t.node n).invocations.any fun v => P (.spawn v.service v.id (some n) v.autoForward)) := by
  simp [invoke, List.any_append, List.any_map, Function.comp_def]

theorem enter_any (ha : ∀ a ∈ (t.node n).actions, a.involves id = false)
    (h : enter r e t p n = .ok q) : q.actions.any P = (p.actions.any P ||
      (t.node n).invocations.any fun v => P (.spawn v.service v.id (some n) v.autoForward)) := by
  obtain ⟨p₁, h₁, h⟩ := Microstep.bind_eq_ok.mp h
  cases h
  rw [invoke_any, addAll_any hP (fun a hm => ha a (by simp [Node.actions, hm])) h₁]

theorem resume_any (ha : ∀ a ∈ (t.node n).actions, a.involves id = false)
    (h : resume r e t p n = .ok q) : q.actions.any P = (p.actions.any P ||
      (t.node n).invocations.any fun v => P (.spawn v.service v.id (some n) v.autoForward)) := by
  obtain ⟨p₁, h₁, h⟩ := Microstep.bind_eq_ok.mp h
  cases h
  rw [invoke_any, addAll_any hP (fun a hm => ha a
    (by simp [Node.actions, (List.mem_filter.mp hm).left])) h₁]

end Plan

-- The ids of invocations that occur are those of the nodes in `c`.
def Tree.Invoked (t : Tree) (c : Configuration) (ids : List String) : Prop :=
  ∀ id ∈ t.invocationIds, id ∈ ids ↔ ∃ n ∈ c, t.invokes n id = true

variable {C S : Type} {t : Tree} {r : Registry C S} {c : Configuration} {us : List Transition}
  {n : NodeIndex} {id : String} {ids : List String}

namespace Tree.InvokesApart

variable (ht : t.InvokesApart)
include ht

theorem exists_iff (hn : t.invokes n id = true) :
    (∃ k ∈ c, t.invokes k id = true) ↔ n ∈ c := by
  constructor
  case mp => exact fun ⟨k, hk, h⟩ => ht.eq_of_invokes hn h ▸ hk
  case mpr => exact fun h => ⟨n, h, hn⟩

theorem any_iff (hn : t.invokes n id = true) {ns : List NodeIndex} :
    (ns.any fun k => t.invokes k id) = true ↔ n ∈ ns := by
  rw [List.any_eq_true]
  constructor
  case mp => exact fun ⟨k, hk, h⟩ => ht.eq_of_invokes hn h ▸ hk
  case mpr => exact fun h => ⟨n, h, hn⟩

end Tree.InvokesApart

namespace Microstep

variable {m : Microstep C} {P : Planned → Bool}

theorem enterNode_any {e : Event} {p q : Plan C} (hP : ∀ a, P a = true → a.endsActor id = true)
    (ha : ∀ a ∈ (t.node n).actions, a.involves id = false) (h : enterNode t r e p n = .ok q) :
    q.actions.any P = (p.actions.any P ||
      (t.node n).invocations.any fun v => P (.spawn v.service v.id (some n) v.autoForward)) := by
  obtain ⟨q', hq', h⟩ := bind_eq_ok.mp h
  cases h
  exact Plan.enter_any (q := q') hP ha hq'

-- What a microstep plans for an invocation: it stops those of the nodes that it exits, and starts
-- those of the nodes that it enters.
theorem Arises.any_actions (ha : Arises t r c us m) (ht : t.InvokesApart)
    (hus : ∀ u ∈ us, u ∈ (t.node u.source).transitions) (hn : t.invokes n id = true)
    (hP : ∀ a, P a = true → a.endsActor id = true) :
    m.exitActions.any P =
        (m.exited.any fun k => (t.node k).invocations.any fun v => P (.stop v.id)) ∧
      m.transitionActions.any P = false ∧
      m.entryActions.any P = m.entered.any fun k =>
        (t.node k).invocations.any fun v => P (.spawn v.service v.id (some k) v.autoForward) := by
  obtain ⟨e, x, p, q, s, hm⟩ := ha.composed
  have hinv {k} : ∀ a ∈ (t.node k).actions, a.involves id = false :=
    fun a => ht.involves_eq_false hn
  have hp := Plan.foldlM_any (f := Plan.exit r e t)
    (fun _ _ _ _ h => Plan.exit_any hP hinv h) hm.exits
  have hq := Plan.foldlM_any (f := addTransition t r e) (g := fun _ => false) (P := P)
    (fun u hu p q h => by
      have hu : ∀ a ∈ u.actions, a.involves id = false := fun a ha =>
        hinv (k := u.source) a (by
          simp only [Node.actions, List.mem_append, List.mem_flatMap]
          exact .inr ⟨u, hus u hu, ha⟩)
      rw [Plan.addAll_any hP hu h, Bool.or_false]) hm.transitions
  have hs := Plan.foldlM_any (f := enterNode t r e)
    (fun _ _ _ _ h => enterNode_any hP hinv h) hm.entries
  rw [hm.exitActions, hm.transitionActions, hm.entryActions, hp, hq, hs]
  simp

-- A microstep leaves those invocations running that belong to the nodes active after it.
theorem Arises.keeps_invoked (wf : t.WellFormed) (ha : Arises t r c us m) (ht : t.InvokesApart)
    (hus : ∀ u ∈ us, u ∈ (t.node u.source).transitions) (hids : ids.Nodup) (hi : t.Invoked c ids) :
    t.Invoked m.configuration (m.actions.foldl Planned.onIds ids) := by
  intro id hid
  obtain ⟨n, hn⟩ := Tree.mem_invocationIds.mp hid
  have hstart (a : Planned) (h : a.startsActor id = true) : a.endsActor id = true := by
    simp [Planned.endsActor_eq, h]
  have hstop (a : Planned) (h : a.stopsActor id = true) : a.endsActor id = true := by
    simp [Planned.endsActor_eq, h]
  obtain ⟨hx, hu, _⟩ := ha.any_actions ht hus hn (P := (·.endsActor id)) fun _ h => h
  obtain ⟨hxs, hus', hes⟩ := ha.any_actions ht hus hn hstart
  obtain ⟨_, _, het⟩ := ha.any_actions ht hus hn hstop
  have hx : m.exitActions.any (·.endsActor id) = m.exited.any fun k => t.invokes k id := hx
  have hes : m.entryActions.any (·.startsActor id) = m.entered.any fun k => t.invokes k id := hes
  have hxs : m.exitActions.any (·.startsActor id) = false := by
    rw [hxs]
    simp [Planned.startsActor]
  have het : m.entryActions.any (·.stopsActor id) = false := by
    rw [het]
    simp [Planned.stopsActor]
  rw [actions, List.foldl_append, List.foldl_append,
    Planned.mem_onIdsAll_of_no_stop (Planned.nodup_onIdsAll (Planned.nodup_onIdsAll hids)) het,
    Planned.mem_onIdsAll_of_no_start (Planned.nodup_onIdsAll hids) hus',
    Planned.mem_onIdsAll_of_no_start hids hxs, hu, hx, hes, hi id hid, ht.exists_iff hn,
    ht.exists_iff hn, ht.any_iff hn, ← Bool.not_eq_true, ht.any_iff hn, ha.mem_configuration wf]
  tauto

-- What is resumed are the invocations of the active nodes.
theorem invoked_of_resume {e : Event} {x : C} {planned : List Planned} (wf : t.WellFormed)
    (ht : t.InvokesApart) (h : resume t r e c x = .ok planned) :
    t.Invoked c (planned.foldl Planned.onIds []) := by
  intro id hid
  obtain ⟨n, hn⟩ := Tree.mem_invocationIds.mp hid
  obtain ⟨p, hp, h⟩ := bind_eq_ok.mp h
  cases h
  have hany {P : Planned → Bool} (hP : ∀ a, P a = true → a.endsActor id = true) :=
    Plan.foldlM_any (f := Plan.resume r e t)
      (fun _ _ _ _ h => Plan.resume_any hP (fun a => ht.involves_eq_false hn) h) hp
  have hstop := hany (P := (·.stopsActor id)) (fun a h => by simp [Planned.endsActor_eq, h])
  have hstart : p.actions.any (·.startsActor id) =
      (t.shallowestFirst c.toList).any fun k => t.invokes k id :=
    hany (P := (·.startsActor id)) (fun a h => by simp [Planned.endsActor_eq, h])
  have hstop : p.actions.any (·.stopsActor id) = false := by
    rw [hstop]
    simp [Planned.stopsActor]
  rw [Planned.mem_onIdsAll_of_no_stop List.nodup_nil hstop, hstart, ht.any_iff hn,
    ht.exists_iff hn, wf.mem_shallowestFirst, ← SortedSet.mem_iff]
  simp

end Microstep

-- A run of the machine by itself starts and stops what its active nodes invoke.
theorem Machine.run_invoked {m : Machine C S} {s : MachineState C} {trigger : Trigger}
    {step : MachineStep C} (wf : m.tree.WellFormed) (ht : m.tree.InvokesApart)
    (hd : s.done = false) (hl : s.configuration = ∅ ∨ s.configuration.isLegal m.tree = true)
    (hst : trigger = .start → s.configuration = ∅) (hids : ids.Nodup)
    (hi : m.tree.Invoked s.configuration ids) (h : (m.run s trigger).outcome = .ok step) :
    (step.state.configuration = ∅ ∨ step.state.configuration.isLegal m.tree = true) ∧
      m.tree.Invoked step.state.configuration (step.actions.foldl Planned.onIds ids) := by
  have hkeeps : Macrostep.Keeps m.tree m.registry noteActions fun actions s =>
      (s.configuration = ∅ ∨ s.configuration.isLegal m.tree = true) ∧
        m.tree.Invoked s.configuration (actions.foldl Planned.onIds ids) := {
    accept := by
      intro actions _ s us m' e hs _ ha hus hc
      cases hc
      rw [List.foldl_append]
      exact ⟨.inr ha.legal, ha.keeps_invoked wf ht hus (Planned.nodup_onIdsAll hids) hs.right⟩
    refuse := fun _ h => by cases h }
  obtain ⟨p, hp, hs, ha⟩ := run_eq_ok h
  have hi : m.tree.Invoked s.configuration (([] : List Planned).foldl Planned.onIds ids) := hi
  exact hs ▸ ha ▸ Macrostep.run_keeps wf hkeeps hd hl hst ⟨hl, hi⟩ hp

namespace Interpreter

variable {A : Type} [ActorModel C S A] {m : Machine C S} {chapters : List (Chapter C A)}
  {i j : Interpreter C S A} {env : Env} {trigger : Trigger} {trace : Trace C A}

theorem macrostep_invoked (wf : i.machine.tree.WellFormed) (ht : i.machine.tree.InvokesApart)
    (hd : i.state.done = false)
    (hl : i.state.configuration = ∅ ∨ i.state.configuration.isLegal i.machine.tree = true)
    (hst : trigger = .start → i.state.configuration = ∅) (hids : i.shell.actors.ids.Nodup)
    (hi : i.machine.tree.Invoked i.state.configuration i.shell.actors.ids)
    (hall : trace.record.Flawless)
    (h : (macrostepTracing env i trigger).outcome = .ok (j, trace))
    (hj : j.shell.status ≠ .stopped) :
    (j.state.configuration = ∅ ∨ j.state.configuration.isLegal i.machine.tree = true) ∧
      i.machine.tree.Invoked j.state.configuration j.shell.actors.ids := by
  obtain ⟨_, hstop⟩ := macrostepTracing_follows h
  obtain ⟨_, hf⟩ := hstop.resolve_left hj
  obtain ⟨step, hrun, hs, ha⟩ := macrostepTracing_run h hall
  rw [hf.ids, Record.carried_of_flawless hall, ← ha, ← hs]
  exact Machine.run_invoked wf ht hd hl hst hids hi hrun

namespace Session

theorem nodup_ids (h : Session m chapters i) (hs : i.shell.status ≠ .stopped) :
    i.shell.actors.ids.Nodup := by
  rw [h.ids hs]
  exact Planned.nodup_onIdsAll List.nodup_nil

theorem legal_invoked (wf : m.tree.WellFormed) (ht : m.tree.InvokesApart)
    (h : Session m chapters i) (hl : ∀ x ∈ chapters, x.record.Flawless)
    (hs : i.shell.status ≠ .stopped) :
    (i.state.configuration = ∅ ∨ i.state.configuration.isLegal m.tree = true) ∧
      m.tree.Invoked i.state.configuration i.shell.actors.ids := by
  induction h with
  | new hm hst _ ha _ =>
    rw [hst, ha]
    exact ⟨.inl rfl, fun _ _ => by simp [MachineState.unstarted, Arena.ids]⟩
  | aside _ hst _ he ih => exact he.ids ▸ ih hl (hst ▸ hs)
  | @start chapters i env t j h hn hj ih =>
    obtain ⟨hleg, hi⟩ := ih (fun x hx => hl x (List.mem_append_left _ hx)) (by simp [hn])
    have hu := h.unstarted (h.nil_iff.mpr hn)
    obtain rfl := h.machine
    exact macrostep_invoked (i := { i with shell.status := .running }) wf ht (hu ▸ rfl) hleg
      (fun _ => hu ▸ rfl) (h.nodup_ids (by simp [hn])) hi (hl (.ran .start t) (by simp)) hj hs
  | @event chapters i env e t j h hrun hj ih =>
    obtain ⟨hleg, hi⟩ := ih (fun x hx => hl x (List.mem_append_left _ hx)) (by simp [hrun])
    obtain rfl := h.machine
    exact macrostep_invoked wf ht (h.not_done hrun) hleg (by simp) (h.nodup_ids (by simp [hrun])) hi
      (hl (.ran (.event e) t) (by simp)) hj hs
  | @resume chapters i env c x planned s t h hc _ hp ih =>
    obtain ⟨hn, hleg⟩ := Course.resumption_ok hc
    have hids := h.ids (by simp [hn])
    rw [h.nil_iff.mpr hn] at hids
    have hf := Shell.performEachTracing_follows hp
    have hact : t.record.actions = planned := Shell.performEachTracing_actions hp
    have hall : t.record.Flawless := hl (.resumed t) (by simp)
    obtain rfl := h.machine
    have hshell : s.actors.ids = planned.foldl Planned.onIds [] := by
      rw [← hact, ← Record.carried_of_flawless hall]
      exact hf.ids.trans (congrArg (t.record.carried.foldl Planned.onIds) hids)
    exact ⟨.inr hleg, hshell ▸ Microstep.invoked_of_resume wf ht (Course.resume_of_resumption hc)⟩
  | halt _ _ _ hj =>
    obtain ⟨_, rfl, hr⟩ := halt_ok hj
    exact absurd hr.status hs
  | stop _ hj => exact absurd (stopped_of_stopTracing hj).right hs

-- As long as no action fails, a running interpreter runs the invocations of the active nodes and no
-- others.
theorem invoked {machineId : String} {root : Definition.State}
    (hb : root.build machineId = .ok m.tree) (ht : m.tree.InvokesApart) (h : Session m chapters i)
    (hl : ∀ x ∈ chapters, x.record.Flawless) (hr : i.shell.status = .running) (id : String) :
    id ∈ m.tree.invocationIds ∧ id ∈ i.shell.actors.ids ↔
      ∃ n ∈ i.state.configuration, m.tree.invokes n id = true := by
  have wf := Definition.State.build_wellFormed hb
  obtain ⟨_, hi⟩ := h.legal_invoked wf ht hl (by simp [hr])
  constructor
  case mp => exact fun ⟨hid, hin⟩ => (hi id hid).mp hin
  case mpr =>
    intro ⟨n, hn, hid⟩
    have hmem := Tree.mem_invocationIds.mpr ⟨n, hid⟩
    exact ⟨hmem, (hi id hmem).mpr ⟨n, hn, hid⟩⟩

-- While something is loading, it is being fetched.
theorem invoked_loader : ∃ (i : NestedInterpreter Unit 0)
    (chapters : List (Chapter Unit (Actor (Child Unit 0)))),
    Session loaderMachine chapters i ∧ i.shell.status = .running ∧
      i.state.configuration = .ofList [0, 2] ∧ loaderId ∈ i.shell.actors.ids := by
  obtain ⟨s, t, t', _, h, ht₀, ht₁, hn⟩ := loader_loading
  have ht : loaderTree.InvokesApart := ⟨by decide +kernel, by decide +kernel⟩
  have hl : ∀ x ∈ [Chapter.ran .start t, .ran (.event (load 1)) t'], x.record.Flawless := by
    simp [Chapter.record, Chapter.trace, ht₀, ht₁, Record.Flawless, -Prod.forall]
  have hactive : ∃ n ∈ SortedSet.ofList [0, 2], loaderTree.invokes n loaderId = true :=
    ⟨2, by decide, by decide +kernel⟩
  exact ⟨_, _, h, hn.status, rfl, ((h.invoked loader_build ht hl hn.status loaderId).mpr
    hactive).right⟩

end Session

end Interpreter

end Statechart
