import Statechart.Definition.References
import Statechart.Proofs.Planning

-- A registry that provides every name in a tree: whatever is planned then can be planned, and what
-- is planned can be carried out.

namespace Statechart

variable {C S : Type} {t : Tree} {r : Registry C S} {e : Event} {c : Configuration} {x : C}
  {h : History} {us : List Transition} {n : NodeIndex}

-- The registry has what the action names, now and when it is carried out.
structure Action.Provided (r : Registry C S) (a : Action) : Prop where
  known : a.Known r
  service {name id : String} : a = .spawn name id → r.hasService name = true

-- The registry has what a planned action names.
def Planned.Known (r : Registry C S) : Planned → Prop
  | effect name => ∃ run, r.actions.find? name = some (.effect run)
  | spawn service .. => ∃ logic, r.services.find? service = some logic
  | _ => True

structure Registry.Provides (r : Registry C S) (t : Tree) : Prop where
  entry {n : NodeIndex} {a : Action} : a ∈ (t.node n).entry → a.Provided r
  exit {n : NodeIndex} {a : Action} : a ∈ (t.node n).exit → a.Provided r
  transition {n : NodeIndex} {u : Transition} {a : Action} : u ∈ (t.node n).transitions →
    a ∈ u.actions → a.Provided r
  guard {n : NodeIndex} {u : Transition} {name : String} : u ∈ (t.node n).transitions →
    u.guard = some (.named name) → r.hasGuard name = true
  service {n : NodeIndex} {i : Invocation} : i ∈ (t.node n).invocations →
    r.hasService i.service = true

namespace Definition

theorem known_of_actionProblems {n : Node} {a : Action} (ha : actionProblems r n a = []) :
    a.Known r := by
  cases a with
  | named name => simpa [actionProblems, Action.Known] using ha
  | send s =>
    intro name hd
    simpa [actionProblems, hd] using ha
  | _ => trivial

theorem hasService_of_serviceProblems {n : Node} {name : String}
    (h : serviceProblems r n name = []) : r.hasService name = true := by
  simpa [serviceProblems] using h

theorem provided_of_actionProblems {n : Node} {a : Action} (ha : actionProblems r n a = []) :
    a.Provided r where
  known := known_of_actionProblems ha
  service hs := by
    subst hs
    exact hasService_of_serviceProblems (n := n) ha

theorem nodeReferenceProblems_eq_nil (hr : referenceProblems r t = []) (hn : n < t.size) :
    nodeReferenceProblems r (t.node n) = [] := by
  refine List.flatMap_eq_nil_iff.mp hr _ ?_
  simpa [Tree.node, Array.getElem?_eq_getElem hn] using Array.getElem_mem hn

-- The check of the names looks at every place where a name can stand.
theorem provides_of_referenceProblems (hr : referenceProblems r t = []) : r.Provides t := by
  have hnode (n : NodeIndex) :
      (∀ a, a ∈ (t.node n).entry ∨ a ∈ (t.node n).exit ∨
          (∃ u ∈ (t.node n).transitions, a ∈ u.actions) → a.Provided r) ∧
        (∀ u ∈ (t.node n).transitions, guardProblems r (t.node n) u = []) ∧
        ∀ i ∈ (t.node n).invocations, r.hasService i.service = true := by
    by_cases hn : n < t.size
    case neg => simp [Tree.node_of_size_le (not_lt.mp hn)]
    case pos =>
      have h := nodeReferenceProblems_eq_nil hr hn
      simp only [nodeReferenceProblems, List.append_eq_nil_iff, List.flatMap_eq_nil_iff] at h
      obtain ⟨⟨hactions, hguards⟩, hservices⟩ := h
      refine ⟨fun a ha => provided_of_actionProblems (hactions a ?_), hguards,
        fun i hi => hasService_of_serviceProblems (hservices i hi)⟩
      simpa [or_assoc] using ha
  exact {
    entry := fun ha => (hnode _).left _ (.inl ha)
    exit := fun ha => (hnode _).left _ (.inr (.inl ha))
    transition := fun hu ha => (hnode _).left _ (.inr (.inr ⟨_, hu, ha⟩))
    guard := fun hu hg => by
      have h := (hnode _).right.left _ hu
      simpa [guardProblems, hg] using h
    service := fun hi => (hnode _).right.right _ hi }

end Definition

namespace Plan

variable {p : Plan C} {a : Action} {actions : List Action}

def Known (r : Registry C S) (p : Plan C) : Prop := ∀ a ∈ p.actions, a.Known r

-- Planning goes well step by step.
theorem exists_foldlM_known {α : Type} {f : Plan C → α → Except ExecutionError (Plan C)}
    {l : List α} (hf : ∀ p, ∀ b ∈ l, p.Known r → ∃ q, f p b = .ok q ∧ q.Known r)
    (hp : p.Known r) : ∃ q, l.foldlM f p = .ok q ∧ q.Known r := by
  induction l generalizing p with
  | nil => exact ⟨p, rfl, hp⟩
  | cons b rest ih =>
    obtain ⟨p₁, h₁, hp₁⟩ := hf p b List.mem_cons_self hp
    obtain ⟨q, hq, hqk⟩ := ih (fun p c hc => hf p c (List.mem_cons_of_mem _ hc)) hp₁
    exact ⟨q, Microstep.bind_eq_ok.mpr ⟨p₁, h₁, hq⟩, hqk⟩

theorem Known.push {b : Planned} (hp : p.Known r) (hb : b.Known r) : (p.push b).Known r :=
  List.forall_mem_append.mpr ⟨hp, List.forall_mem_singleton.mpr hb⟩

theorem exists_add_known (owner : NodeIndex) (ha : a.Provided r) (hp : p.Known r) :
    ∃ q, add r e owner p a = .ok q ∧ q.Known r := by
  obtain ⟨q, hq⟩ : ∃ q, add r e owner p a = .ok q := exists_add.mpr ha.known
  refine ⟨q, hq, ?_⟩
  cases a with
  | named name =>
    simp only [add] at hq
    split at hq
    case h_1 =>
      cases hq
      exact hp
    case h_2 run hrun =>
      cases hq
      exact hp.push ⟨run, hrun⟩
    case h_3 => cases hq
  | send s =>
    obtain ⟨_, _, hq⟩ := Microstep.bind_eq_ok.mp hq
    cases hq
    exact hp.push trivial
  | raise =>
    cases hq
    exact hp
  | spawn service id =>
    cases hq
    exact hp.push (Option.isSome_iff_exists.mp (ha.service rfl))
  | cancel | log | stop =>
    cases hq
    exact hp.push trivial

theorem exists_addAll_known (owner : NodeIndex) (ha : ∀ a ∈ actions, a.Provided r)
    (hp : p.Known r) : ∃ q, addAll r e owner p actions = .ok q ∧ q.Known r :=
  exists_foldlM_known (fun _ _ hmem hp => exists_add_known owner (ha _ hmem) hp) hp

section Provides

variable (hr : r.Provides t)
include hr

theorem exists_exit_known (hp : p.Known r) : ∃ q, exit r e t p n = .ok q ∧ q.Known r := by
  obtain ⟨q, hq, hqk⟩ := exists_addAll_known (e := e) Tree.root (fun _ ha => hr.exit ha) hp
  refine ⟨_, Microstep.bind_eq_ok.mpr ⟨q, hq, rfl⟩, ?_⟩
  refine List.forall_mem_append.mpr ⟨List.forall_mem_append.mpr ⟨hqk, fun b hb => ?_⟩,
    List.forall_mem_singleton.mpr trivial⟩
  obtain ⟨i, _, rfl⟩ := List.mem_map.mp hb
  trivial

theorem Known.invoke (hp : p.Known r) : (p.invoke t n).Known r := by
  refine List.forall_mem_append.mpr ⟨hp, fun b hb => ?_⟩
  obtain ⟨i, hi, rfl⟩ := List.mem_map.mp hb
  exact Option.isSome_iff_exists.mp (hr.service hi)

theorem exists_enter_known (hp : p.Known r) : ∃ q, enter r e t p n = .ok q ∧ q.Known r := by
  obtain ⟨q, hq, hqk⟩ := exists_addAll_known (e := e) n (fun _ ha => hr.entry ha) hp
  exact ⟨_, Microstep.bind_eq_ok.mpr ⟨q, hq, rfl⟩, hqk.invoke hr⟩

theorem exists_resume_known (hp : p.Known r) : ∃ q, resume r e t p n = .ok q ∧ q.Known r := by
  obtain ⟨q, hq, hqk⟩ := exists_addAll_known (e := e) n
    (fun _ ha => hr.entry (List.mem_of_mem_filter ha)) hp
  exact ⟨_, Microstep.bind_eq_ok.mpr ⟨q, hq, rfl⟩, hqk.invoke hr⟩

end Provides

-- The effects among the exit actions of a node are planned.
theorem effect_mem_exit {name : String} {run : C → Event → EffectPlan} {q : Plan C}
    (ha : .named name ∈ (t.node n).exit) (hr : r.actions.find? name = some (.effect run))
    (hq : exit r e t p n = .ok q) : .effect name ∈ q.actions := by
  obtain ⟨p₁, h₁, hq⟩ := Microstep.bind_eq_ok.mp hq
  cases hq
  refine List.mem_append_left _ (List.mem_append_left _ ?_)
  refine mem_of_foldlM (f := add r e Tree.root) (fun _ _ _ => add_extends) (fun p q h => ?_) ha h₁
  simp only [add, hr] at h
  cases h
  simp [push]

end Plan

namespace Microstep

def Known (r : Registry C S) (m : Microstep C) : Prop := ∀ a ∈ m.actions, a.Known r

variable (hr : r.Provides t)
include hr

theorem exists_enterNode_known {p : Plan C} (hp : p.Known r) :
    ∃ q, enterNode t r e p n = .ok q ∧ q.Known r := by
  obtain ⟨q, hq, hqk⟩ := Plan.exists_enter_known (e := e) (n := n) hr hp
  exact ⟨_, bind_eq_ok.mpr ⟨q, hq, rfl⟩, hqk⟩

theorem exists_entries_known (ns : List NodeIndex) (raised : List Event) :
    ∃ q, ns.foldlM (enterNode t r e) { context := x, raised := raised } = .ok q ∧ q.Known r :=
  Plan.exists_foldlM_known (fun _ _ _ => exists_enterNode_known hr) (List.forall_mem_nil _)

-- Transitions of the tree can be taken, unless they lead to where nothing is.
theorem take_known (hu : ∀ u ∈ us, ∃ n, u ∈ (t.node n).transitions) :
    (∃ m, take t r e c x h us = .ok m ∧ m.Known r) ∨ take t r e c x h us = .error .illegal := by
  obtain ⟨p, hp, hpk⟩ := Plan.exists_foldlM_known (p := { context := x }) (l := exitedBy t c us)
    (f := Plan.exit r e t) (fun _ _ _ => Plan.exists_exit_known hr) (List.forall_mem_nil _)
  obtain ⟨q, hq, hqk⟩ := Plan.exists_foldlM_known (r := r) (p := { p with actions := [] }) (l := us)
    (f := addTransition t r e) (fun _ u hmem hp => by
      obtain ⟨n, hn⟩ := hu u hmem
      exact Plan.exists_addAll_known _ (fun _ ha => hr.transition hn ha) hp) (List.forall_mem_nil _)
  obtain ⟨s, hs, hsk⟩ := exists_entries_known (e := e) (x := q.context) hr (enteredBy t c h us)
    q.raised
  cases hl : (next t c (historyAfter t c h us) us).isLegal t
  case true =>
    refine .inl ⟨_, take_eq_ok_iff.mpr ⟨hl, p, q, s, ⟨hp, hq, hs⟩, rfl⟩, ?_⟩
    exact List.forall_mem_append.mpr ⟨List.forall_mem_append.mpr ⟨hpk, hqk⟩, hsk⟩
  case false =>
    exact .inr (take_eq_illegal.mpr ⟨⟨q, bind_eq_ok.mpr ⟨p, hp, hq⟩⟩, hl⟩)

theorem initial_known :
    (∃ m, initial t r e x h = .ok m ∧ m.Known r) ∨ initial t r e x h = .error .illegal := by
  cases hl : (t.resolve h [Tree.root]).isLegal t
  case true =>
    obtain ⟨s, hs, hsk⟩ := exists_entries_known (e := e) (x := x) hr _ []
    refine .inl ⟨_, enter_eq_ok_iff.mpr ⟨hl, s, hs, rfl⟩, ?_⟩
    exact List.forall_mem_append.mpr ⟨List.forall_mem_nil _, hsk⟩
  case false => exact .inr (enter_of_illegal hl)

theorem exitAll_known : ∃ m, exitAll t r e c x h = .ok m ∧ m.Known r := by
  obtain ⟨p, hp, hpk⟩ := Plan.exists_foldlM_known (p := { context := x }) (l := deepestFirst t c)
    (f := Plan.exit r e t) (fun _ _ _ => Plan.exists_exit_known hr) (List.forall_mem_nil _)
  refine ⟨_, bind_eq_ok.mpr ⟨p, hp, rfl⟩, ?_⟩
  exact List.forall_mem_append.mpr ⟨List.forall_mem_append.mpr ⟨hpk, List.forall_mem_nil _⟩,
    List.forall_mem_nil _⟩

theorem resume_known :
    ∃ actions, resume t r e c x = .ok actions ∧ ∀ a ∈ actions, a.Known r := by
  obtain ⟨p, hp, hpk⟩ := Plan.exists_foldlM_known (p := { context := x })
    (l := t.shallowestFirst c.toList) (f := Plan.resume r e t)
    (fun _ _ _ => Plan.exists_resume_known hr) (List.forall_mem_nil _)
  exact ⟨_, bind_eq_ok.mpr ⟨p, hp, rfl⟩, hpk⟩

end Microstep

end Statechart
