import Statechart.Proofs.Checkpoint

-- What is not looked at when a checkpoint is accepted, and what comes of it.

namespace Statechart

namespace Tree

variable {t : Tree} {h : History} {seeds : List NodeIndex} {k n : NodeIndex} {r : NodeSet}

-- Whether targets can be active together does not depend on the root, which lies above them all.
theorem compatible_insert_root (wf : t.WellFormed) {K : Set NodeIndex} :
    t.Compatible (insert root K) ↔ t.Compatible K := by
  constructor
  case mp =>
    intro h n hn a ha b hb x hx hax y hy hby
    exact h n hn a ha b hb x (.inr hx) hax y (.inr hy) hby
  case mpr =>
    intro h n hn a ha b hb x hx hax y hy hby
    have hroot {c z} (hc : c ∈ t.children n) (hz : z ∈ insert root K) (hcz : c ∈ t.path z) :
        z ∈ K := by
      refine hz.resolve_left ?_
      rintro rfl
      exact absurd ((wf.lt_of_child hc).trans_le (wf.path_le hcz)) (Nat.not_lt_zero _)
    exact h n hn a ha b hb x (hroot ha hx hax) hax y (hroot hb hy hby) hby

-- What nodes of the tree resolve to is legal if and only if there are any, none of them is a
-- history node, and they can be active together.
theorem resolve_isLegal (wf : t.WellFormed) (hK : ∀ k ∈ t.Concrete h seeds, k < t.size) :
    (t.resolve h seeds).isLegal t = true ↔ (∃ k, k ∈ t.Concrete h seeds) ∧
      (∀ k ∈ t.Concrete h seeds, (t.node k).isHistory = false) ∧
      t.Compatible (t.Concrete h seeds) := by
  rw [Configuration.isLegal_iff wf]
  constructor
  case mp =>
    intro hl
    have hmem k (hk : k ∈ t.Concrete h seeds) : k ∈ t.resolve h seeds :=
      wf.mem_resolve.mpr (.above hk self_mem_path)
    refine ⟨?_, fun k hk => hl.not_history (hmem k hk), hl.compatible wf hmem⟩
    have hsome {n} (he : t.Entered (t.Concrete h seeds) n) : ∃ k, k ∈ t.Concrete h seeds := by
      induction he with
      | above hk => exact ⟨_, hk⟩
      | region _ _ _ ih => exact ih
      | initial _ _ _ _ ih => exact ih
    exact hsome (wf.mem_resolve.mp hl.root)
  case mpr =>
    rintro ⟨⟨k, hk⟩, hh, hc⟩
    exact Configuration.legal_of_compatible wf hc ⟨k, hk, wf.root_mem_path (hK k hk)⟩ hh
      fun n => wf.mem_resolve

-- Entering a history node for which `r` is recorded.
theorem resolve_recorded (wf : t.WellFormed) (hk : (t.node k).isHistory = true)
    (hr : h.find? k = some r) (hlt : ∀ n ∈ r, n < t.size) :
    (t.resolve h [root, k]).isLegal t = true ↔
      (∀ n ∈ r, (t.node n).isHistory = false) ∧ t.Compatible { n | n ∈ r } := by
  have hK : t.Concrete h [root, k] = insert root { n | n ∈ r } := by
    ext n
    rw [mem_concrete]
    simp [concreteTargets, wf.root_not_history, hk, hr, SortedSet.mem_iff]
  have hlt : ∀ n ∈ t.Concrete h [root, k], n < t.size := by
    rw [hK]
    rintro n (rfl | hn)
    · exact wf.size_pos
    · exact hlt n hn
  rw [resolve_isLegal wf hlt, hK, compatible_insert_root wf]
  simp only [Set.mem_insert_iff, forall_eq_or_imp, wf.root_not_history, true_and,
    Set.mem_ofPred_eq]
  exact ⟨And.right, fun h => ⟨⟨root, .inl rfl⟩, h⟩⟩

end Tree

-- What holds of every state that a machine comes to by itself once something is active.
structure MachineState.Regular {C : Type} (t : Tree) (s : MachineState C) : Prop where
  legal : s.configuration.isLegal t = true
  recorded : ∀ k r, s.history.find? k = some r → (t.node k).isHistory = true
  within : s.history.Within t
  joint : s.history.Joint t
  done : s.done = s.configuration.isComplete t Tree.root

-- The same as far as it is not looked at when a checkpoint is accepted: the nodes with the ids
-- written for a history node lie below its parent, are not history nodes and can be active
-- together, and the machine is written to be done exactly if its root is complete.
structure Checkpoint.Regular {C : Type} (t : Tree) (c : Checkpoint C) : Prop where
  within : ∀ k p ids, (t.node k).parent = some p → c.history.find? (t.node k).id = some ids →
    ∀ n < t.size, (t.node n).id ∈ ids → p ∈ t.ancestors n ∧ (t.node n).isHistory = false
  joint : ∀ k ids, c.history.find? (t.node k).id = some ids →
    t.Compatible { n | n < t.size ∧ (t.node n).id ∈ ids }
  done : ∀ s : Configuration, Lists t c.configuration s → c.done = s.isComplete t Tree.root

namespace Checkpoint

variable {C : Type} {t : Tree} {c : Checkpoint C} {s : MachineState C} {k : NodeIndex} {r : NodeSet}

-- What is recorded for a history node has been written for it.
theorem Accepted.find_iff (ha : c.Accepted t s) : s.history.find? k = some r ↔
    (k < t.size ∧ (t.node k).isHistory = true) ∧
      ∃ ids, c.history.find? (t.node k).id = some ids ∧ Lists t ids r := by
  rw [ha.history.find]
  constructor
  case mp =>
    rintro ⟨⟨id, ids⟩, he, ⟨hk, hid, hh⟩, hl⟩
    exact ⟨⟨hk, hh⟩, ids, hid ▸ SortedMap.find?_eq_some.mpr he, hl⟩
  case mpr =>
    rintro ⟨⟨hk, hh⟩, ids, hf, hl⟩
    exact ⟨_, SortedMap.find?_eq_some.mp hf, ⟨hk, rfl, hh⟩, hl⟩

-- What has been written for an id is recorded for the history node with that id.
theorem Accepted.exists_record (ha : c.Accepted t s) {id : String} {ids : List String}
    (hf : c.history.find? id = some ids) : ∃ k r, k < t.size ∧ (t.node k).id = id ∧
      (t.node k).isHistory = true ∧ Lists t ids r ∧ s.history.find? k = some r := by
  have he := SortedMap.find?_eq_some.mp hf
  obtain ⟨⟨k, r⟩, hr⟩ := ha.history.known _ he
  obtain ⟨⟨hk, hid, hh⟩, hl⟩ := hr
  exact ⟨k, r, hk, hid, hh, hl, (ha.history.find k r).mpr ⟨_, he, ⟨hk, hid, hh⟩, hl⟩⟩

theorem Lists.setOf_eq {ids : List String} (hl : Lists t ids r) :
    { n | n < t.size ∧ (t.node n).id ∈ ids } = { n | n ∈ r } :=
  Set.ext fun n => (hl.mem n).symm

-- Nothing but what is written makes up for what is not looked at.
theorem Accepted.regular_iff (hi : t.Identified) (wf : t.WellFormed) (ha : c.Accepted t s) :
    s.Regular t ↔ c.Regular t := by
  constructor
  case mp =>
    intro h
    refine ⟨fun k p ids hp hf n hn hid => ?_, fun k ids hf => ?_, fun s' hl => ?_⟩
    case refine_1 =>
      obtain ⟨j, r, hj, he, hh, hl, hr⟩ := ha.exists_record hf
      have hjk := hi.indexOf?_id hj
      rw [he, hi.indexOf?_id (wf.child (wf.parent_eq_some.mp hp)).left] at hjk
      cases hjk
      exact h.within k p r hh hp hr n ((hl.mem n).mpr ⟨hn, hid⟩)
    case refine_2 =>
      obtain ⟨j, r, _, _, hh, hl, hr⟩ := ha.exists_record hf
      obtain ⟨p, hp⟩ := wf.exists_parent_of_history hh
      rw [hl.setOf_eq]
      exact h.joint j p r hh (wf.parent_of_child hp) hr
    case refine_3 => rw [← ha.done, h.done, ha.configuration.unique hl]
  case mpr =>
    intro h
    refine ⟨ha.legal, fun k r hr => ?_, fun k p r hk hp hr n hn => ?_, fun k p r _ _ hr => ?_, ?_⟩
    case refine_1 => exact (ha.find_iff.mp hr).left.right
    case refine_2 =>
      obtain ⟨_, ids, hf, hl⟩ := ha.find_iff.mp hr
      obtain ⟨hn, hid⟩ := (hl.mem n).mp hn
      exact h.within k p ids hp hf n hn hid
    case refine_3 =>
      obtain ⟨_, ids, hf, hl⟩ := ha.find_iff.mp hr
      rw [← hl.setOf_eq]
      exact h.joint k ids hf
    case refine_4 => rw [ha.done, h.done _ ha.configuration]

-- An accepted state has legal nodes, and its records are of history nodes. That they lie below the
-- parent and can be active together, and that the machine is done when its root is complete, is not
-- looked at: it holds if and only if it has been written so, and a history node can be entered if
-- and only if what is recorded for it can be active together.
theorem state_regular_iff {machineId : String} {root : Definition.State}
    (hb : root.build machineId = .ok t) (h : c.state t = .ok s) :
    s.configuration.isLegal t = true ∧ (∀ n ∈ s.configuration, n < t.size) ∧
      s.context = c.context ∧ s.done = c.done ∧ s.doneData = none ∧
      (∀ k r, s.history.find? k = some r →
        (t.node k).isHistory = true ∧ (∀ n ∈ r, n < t.size) ∧
          ((t.resolve s.history [Tree.root, k]).isLegal t = true ↔
            (∀ n ∈ r, (t.node n).isHistory = false) ∧ t.Compatible { n | n ∈ r })) ∧
      (s.Regular t ↔ c.Regular t) ∧
      (c.Regular t → ∀ k r, s.history.find? k = some r →
        (t.resolve s.history [Tree.root, k]).isLegal t = true) := by
  have wf := Definition.State.build_wellFormed hb
  have hi := Definition.State.build_identified hb
  have ha := (state_eq_ok hi).mp h
  have hrecorded {k r} (hr : s.history.find? k = some r) :
      (t.node k).isHistory = true ∧ ∀ n ∈ r, n < t.size := by
    obtain ⟨⟨_, hk⟩, _, _, hl⟩ := ha.find_iff.mp hr
    exact ⟨hk, fun n hn => ((hl.mem n).mp hn).left⟩
  have hresolve {k r} (hr : s.history.find? k = some r) :=
    Tree.resolve_recorded wf (hrecorded hr).left hr (hrecorded hr).right
  refine ⟨ha.legal, fun n hn => ((ha.configuration.mem n).mp hn).left, ha.context, ha.done,
    ha.doneData, fun k r hr => ⟨(hrecorded hr).left, (hrecorded hr).right, hresolve hr⟩,
    ha.regular_iff hi wf, fun hc k r hr => (hresolve hr).mpr ?_⟩
  have hs := (ha.regular_iff hi wf).mpr hc
  obtain ⟨p, hp⟩ := wf.exists_parent_of_history (hrecorded hr).left
  have hp := wf.parent_of_child hp
  exact ⟨fun n hn => (hs.within k p r (hrecorded hr).left hp hr n hn).right,
    hs.joint k p r (hrecorded hr).left hp hr⟩

end Checkpoint

-- A lantern that comes on as bright as it was.
def lantern : Definition.State :=
  .mk { key := "m", initial := some "off" } [
    .mk { key := "off", transitions := [(.event "ON", { targets := ["on.seen"] })] } [],
    .mk { key := "on", initial := some "dim" } [
      .mk { key := "last", shape := .history .deep } [],
      .mk { key := "seen", shape := .history .shallow } [],
      .mk { key := "dim" } [],
      .mk { key := "bright" } []]]

def lanternTree : Tree := ((Definition.Layout.ofState "m" lantern).lower "m").value

theorem lantern_build : lantern.build "m" = .ok lanternTree :=
  Definition.State.build_of_problems (by decide +kernel)

namespace Checkpoint

-- A checkpoint that no lantern could have been captured in.
def crooked : Checkpoint Unit where
  version := currentVersion
  id := .nil
  timestamp := .epoch
  machineId := "m"
  configuration := ["m", "m.off"]
  history := .ofList [("m.on.last", ["m.off"]), ("m.on.seen", ["m.on.dim", "m.on.bright"])]
  context := ()
  done := true

theorem crooked_state : ∃ s, crooked.state lanternTree = .ok s ∧
    s.configuration = .ofList [0, 1] ∧ s.done = true ∧ s.history.find? 3 = some (.ofList [1]) ∧
    s.history.find? 4 = some (.ofList [5, 6]) :=
  Microstep.exists_eq_ok (by decide +kernel)

theorem dim_bright_apart : ¬ lanternTree.Compatible { n | n ∈ SortedSet.ofList [5, 6] } := by
  intro h
  have := h 2 (by decide +kernel) 5 (by decide +kernel) 6 (by decide +kernel)
    5 (SortedSet.mem_ofList.mpr (by simp)) Tree.self_mem_path
    6 (SortedSet.mem_ofList.mpr (by simp)) Tree.self_mem_path
  contradiction

theorem state_regular_iff_crooked : ∃ s, crooked.state lanternTree = .ok s ∧
    s.configuration.isLegal lanternTree = true ∧
    ¬ (lanternTree.resolve s.history [Tree.root, 4]).isLegal lanternTree = true := by
  obtain ⟨s, h, _, _, _, hr⟩ := crooked_state
  obtain ⟨hl, _, _, _, _, hrecords, _⟩ := state_regular_iff lantern_build h
  exact ⟨s, h, hl, fun he => dim_bright_apart ((hrecords 4 _ hr).right.right.mp he).right⟩

-- It is accepted all the same.
theorem exists_irregular : ∃ s, crooked.state lanternTree = .ok s ∧
    ¬ s.history.Within lanternTree ∧ ¬ s.history.Joint lanternTree ∧
    s.done ≠ s.configuration.isComplete lanternTree Tree.root ∧
    (lanternTree.resolve s.history [Tree.root, 4]).isLegal lanternTree = false := by
  obtain ⟨s, h, hc, hd, hlast, hseen⟩ := crooked_state
  have hwithin : ¬ s.history.Within lanternTree := by
    intro hw
    have := (hw 3 2 _ (by decide +kernel) (by decide +kernel) hlast 1
      (SortedSet.mem_ofList.mpr (by simp))).left
    revert this
    decide +kernel
  have hjoint : ¬ s.history.Joint lanternTree := fun hj =>
    dim_bright_apart (hj 4 2 _ (by decide +kernel) (by decide +kernel) hseen)
  refine ⟨s, h, hwithin, hjoint, ?_, ?_⟩
  case refine_1 =>
    rw [hd, hc]
    decide +kernel
  case refine_2 =>
    have hlt : ∀ n ∈ SortedSet.ofList [5, 6], n < lanternTree.size := by decide +kernel
    rw [← Bool.not_eq_true, Tree.resolve_recorded (Definition.State.build_wellFormed lantern_build)
      (by decide +kernel) hseen hlt]
    exact fun hr => dim_bright_apart hr.right

end Checkpoint

end Statechart
