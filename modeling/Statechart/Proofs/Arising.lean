import Statechart.Proofs.Planning
import Statechart.Proofs.Play

-- The microsteps that a machine can come to, and what holds of its states because each of these
-- microsteps keeps it.

namespace Statechart

-- Shallower nodes come first, and nodes of one depth in document order.
def Tree.Before (t : Tree) (a b : NodeIndex) : Prop :=
  (t.node a).depth < (t.node b).depth ∨ (t.node a).depth = (t.node b).depth ∧ a < b

theorem Tree.shallowestFirst_ordered {t : Tree} {ns : List NodeIndex} (h : ns.Pairwise (· < ·)) :
    (t.shallowestFirst ns).Pairwise t.Before := by
  rw [shallowestFirst, List.pairwise_flatMap]
  constructor
  case left =>
    intro d _
    refine (h.filter _).imp_of_mem fun {a b} ha hb hab => .inr ⟨?_, hab⟩
    have ha := (List.mem_filter.mp ha).right
    have hb := (List.mem_filter.mp hb).right
    simp_all
  case right =>
    refine List.pairwise_lt_range.imp fun {d d'} hd a ha b hb => .inl ?_
    have ha := (List.mem_filter.mp ha).right
    have hb := (List.mem_filter.mp hb).right
    simp_all

theorem Tree.Before.ne {t : Tree} {a b : NodeIndex} (h : t.Before a b) : a ≠ b := by
  rintro rfl
  simp [Before] at h

namespace Microstep

variable {C S : Type} {t : Tree} {r : Registry C S} {c : Configuration} {us : List Transition}
  {m : Microstep C} {n : NodeIndex}

theorem mem_deepestFirst (wf : t.WellFormed) : n ∈ deepestFirst t c ↔ n ∈ c := by
  rw [deepestFirst, List.mem_reverse, wf.mem_shallowestFirst, SortedSet.mem_iff]

theorem deepestFirst_ordered (t : Tree) (c : Configuration) :
    (deepestFirst t c).Pairwise fun a b => t.Before b a := by
  rw [deepestFirst, List.pairwise_reverse]
  exact Tree.shallowestFirst_ordered (SortedSet.increasing _)

-- From what is active in `c` a machine can come to `m`: nothing is active yet and it starts, or it
-- takes `us`.
inductive Arises (t : Tree) (r : Registry C S) :
    Configuration → List Transition → Microstep C → Prop
  | initial {e x h m} : initial t r e x h = .ok m → Arises t r ∅ [] m
  | take {c e x h us m} : c.isLegal t = true → take t r e c x h us = .ok m → Arises t r c us m

-- What a microstep is composed of: the plans of its exits, of its transitions and of its entries.
structure Composed (t : Tree) (r : Registry C S) (e : Event) (x : C) (us : List Transition)
    (m : Microstep C) (p q s : Plan C) : Prop where
  exits : m.exited.foldlM (Plan.exit r e t) { context := x } = .ok p
  transitions : us.foldlM (addTransition t r e) { p with actions := [] } = .ok q
  entries : m.entered.foldlM (enterNode t r e) { context := q.context, raised := q.raised } = .ok s
  exitActions : m.exitActions = p.actions
  transitionActions : m.transitionActions = q.actions
  entryActions : m.entryActions = s.actions
  raised : m.raised =
    s.raised ++ t.parallelEvents (t.completedParallels m.configuration m.entered)
  done : m.done = (m.entered.any t.endsMachine ||
    (t.completedParallels m.configuration m.entered).contains Tree.root)
  doneData : m.doneData = t.doneData m.entered

namespace Arises

theorem composed (ha : Arises t r c us m) : ∃ e x p q s, Composed t r e x us m p q s := by
  cases ha with
  | @initial e x h m hm =>
    obtain ⟨_, s, hs, rfl⟩ := enter_eq_ok_iff.mp hm
    exact ⟨e, x, { context := x }, { context := x }, s, rfl, rfl, hs, rfl, rfl, rfl, rfl, rfl, rfl⟩
  | @take c e x h us m _ hm =>
    obtain ⟨_, p, q, s, hparts, rfl⟩ := take_eq_ok_iff.mp hm
    exact ⟨e, x, p, q, s, hparts.exits, hparts.transitions, hparts.entries, rfl, rfl, rfl, rfl, rfl,
      rfl⟩

theorem legal (ha : Arises t r c us m) : m.configuration.isLegal t = true := by
  cases ha with
  | initial hm => exact (initial_eq_ok hm).left
  | take _ hm => exact (take_eq_ok hm).right.right

-- What is exited is left, and everything that does not stay active is entered.
theorem lists (ha : Arises t r c us m) : m.exited = exitedBy t c us ∧ m.entered =
    t.shallowestFirst (m.configuration.filter fun n => !(remaining t c us).contains n).toList := by
  cases ha with
  | initial hm =>
    obtain ⟨_, s, _, rfl⟩ := enter_eq_ok_iff.mp hm
    refine ⟨?_, rfl⟩
    simp [exitedBy, deepestFirst, exiting, SortedSet.filter, EmptyCollection.emptyCollection,
      SortedSet.empty, Tree.shallowestFirst]
  | take _ hm =>
    rw [(take_eq_ok hm).left]
    exact take_lists hm

theorem exited_ordered (ha : Arises t r c us m) : m.exited.Pairwise fun a b => t.Before b a := by
  rw [ha.lists.left]
  exact deepestFirst_ordered _ _

theorem entered_ordered (ha : Arises t r c us m) : m.entered.Pairwise t.Before := by
  rw [ha.lists.right]
  exact Tree.shallowestFirst_ordered (SortedSet.increasing _)

theorem entered_nodup (ha : Arises t r c us m) : m.entered.Nodup :=
  ha.entered_ordered.imp Tree.Before.ne

section WellFormed

variable (wf : t.WellFormed)
include wf

theorem mem_exited (ha : Arises t r c us m) :
    n ∈ m.exited ↔ n ∈ c ∧ ∃ u ∈ us, t.exits u n = true := by
  rw [ha.lists.left, mem_exitedBy wf]

theorem mem_entered (ha : Arises t r c us m) :
    n ∈ m.entered ↔ n ∈ m.configuration ∧ (n ∈ c → n ∈ m.exited) := by
  rw [ha.mem_exited wf, ha.lists.right, wf.mem_shallowestFirst, ← SortedSet.mem_iff,
    SortedSet.mem_filter, Bool.not_eq_true', SortedSet.contains_eq_false_iff, mem_remaining]
  simp only [not_and, not_forall, Bool.not_eq_false, exists_prop]
  exact and_congr_right fun _ => forall_congr' fun hn => (and_iff_right hn).symm

theorem mem_configuration (ha : Arises t r c us m) :
    n ∈ m.configuration ↔ n ∈ m.entered ∨ n ∈ c ∧ n ∉ m.exited := by
  cases ha with
  | initial hm => simp [mem_configuration_initial wf hm]
  | take hc hm => exact Microstep.mem_configuration wf ((Configuration.isLegal_iff wf).mp hc) hm

end WellFormed

end Arises

end Microstep

namespace Macrostep

variable {C S σ : Type} {t : Tree} {r : Registry C S} {config : Config} {commit : Commit σ C}
  {J : σ → MachineState C → Prop} {p q q' : Progress σ C} {us : List Transition} {shell : σ}
  {s : MachineState C} {trigger : Trigger} {e : Event} {eventless : Bool}

-- Every microstep that is committed keeps `J`, and so does one that is refused.
structure Keeps (t : Tree) (r : Registry C S) (commit : Commit σ C)
    (J : σ → MachineState C → Prop) : Prop where
  accept {shell shell' : σ} {s : MachineState C} {us : List Transition} {m : Microstep C}
    {e : Event} : J shell s → s.done = false → Microstep.Arises t r s.configuration us m →
    (∀ u ∈ us, u ∈ (t.node u.source).transitions) →
    (commit shell m e).outcome = .ok (shell', none) → J shell' (s.after m)
  refuse {shell shell' : σ} {s : MachineState C} {m : Microstep C} {e : Event}
    {err : ExecutionError} : J shell s → (commit shell m e).outcome = .ok (shell', some err) →
    J shell' { s with context := m.context }

variable (wf : t.WellFormed) (hk : Keeps t r commit J)
include wf hk

-- The nodes stay legal along the way.
theorem takes_keeps (hl : q.state.configuration.isLegal t = true) (hd : q.state.done = false)
    (hs : (selection t r config q.state e eventless).result = .ok us) (hJ : J q.shell q.state)
    (ht : Takes t r commit q us q') :
    q'.state.configuration.isLegal t = true ∧ J q'.shell q'.state := by
  cases ht with
  | @intro m shell ha hc =>
    have har : Microstep.Arises t r q.state.configuration us m := .take hl ha
    have hsel := select_selected wf ((Configuration.isLegal_iff wf).mp hl) hs
    exact ⟨har.legal, hk.accept hJ hd har (fun u hu => hsel.declared hu) hc⟩

theorem started_keeps (hd : s.done = false)
    (hl : s.configuration = ∅ ∨ s.configuration.isLegal t = true)
    (hst : trigger = .start → s.configuration = ∅) (hJ : J shell s)
    (h : Started t r config commit shell s trigger p) :
    p.state.configuration.isLegal t = true ∧ J p.shell p.state := by
  cases h with
  | @start m _ hm hc =>
    have ha : Microstep.Arises t r s.configuration [] m := hst rfl ▸ .initial hm
    exact ⟨ha.legal, hk.accept hJ hd ha (by simp) hc⟩
  | event he hus ht =>
    have hl := hl.resolve_left (ne_empty_of_selection he hus)
    exact takes_keeps wf hk (q := opening ..) hl hd he hJ ht

-- What every microstep keeps holds in the end if it holds before.
theorem run_keeps (hd : s.done = false)
    (hl : s.configuration = ∅ ∨ s.configuration.isLegal t = true)
    (hst : trigger = .start → s.configuration = ∅) (hJ : J shell s)
    (h : (run t r config commit shell s trigger).outcome = .ok p) : J p.shell p.state := by
  have hJ : (s.configuration = ∅ ∨ s.configuration.isLegal t = true) ∧ J shell s := ⟨hl, hJ⟩
  refine (run_preserves (J := fun shell s =>
    (s.configuration = ∅ ∨ s.configuration.isLegal t = true) ∧ J shell s) ?_ ?_ ?_ hJ h).right
  case refine_1 =>
    intro q us q' e eventless hq hd hs hus ht
    have hl := hq.left.resolve_left (ne_empty_of_selection hs hus)
    exact (takes_keeps wf hk hl hd hs hq.right ht).imp_left .inr
  case refine_2 =>
    intro p hp
    exact (started_keeps wf hk hd hl hst hJ.right hp).imp_left .inr
  case refine_3 => exact fun hs hc => ⟨hs.left, hk.refuse hs.right hc⟩

end Macrostep

end Statechart
