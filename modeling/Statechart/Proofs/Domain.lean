import Statechart.Proofs.Legal
import Statechart.Selection

-- Which nodes transitions exit, and when two transitions get in each other's way.

namespace Statechart

namespace Tree

variable {t : Tree} {u v : Transition} {d e n m x : NodeIndex}

theorem isTargetless_iff : u.isTargetless = true ↔ u.targets = [] := by
  simp [Transition.isTargetless]

theorem domain_eq_none : t.domain u = none ↔ u.isTargetless = true := by
  simp only [domain]
  split
  · simp_all
  · split <;> simp_all

theorem exits_iff : t.exits u n = true ↔ ∃ d, t.domain u = some d ∧ d ∈ t.ancestors n := by
  simp only [exits]
  split <;> simp_all

theorem not_exits_of_targetless (h : u.isTargetless = true) : t.exits u n = false := by
  simp only [exits]
  rw [domain_eq_none.mpr h]

namespace WellFormed

variable (wf : t.WellFormed)
include wf

theorem eq_root_of_parent_none (h : d ∈ t.ancestors n) (hp : (t.node d).parent = none) :
    d = root := by
  by_contra hd
  have ⟨_, hc, _⟩ := wf.exists_child_above h
  have ⟨p, hdp⟩ := wf.exists_parent hd (lt_size_of_children hc)
  simp [wf.parent_of_child hdp] at hp

omit wf in
theorem lt_size_of_transition (h : u ∈ (t.node n).transitions) : n < t.size := by
  by_contra hn
  simp [node_of_size_le (not_lt.mp hn)] at h

-- The common ancestor is a compound node properly above all the nodes, or else the root.
theorem commonAncestor_spec (rest : List NodeIndex) :
    (t.node (t.commonAncestor (n :: rest))).kind = .compound ∧
        (∀ x ∈ n :: rest, t.commonAncestor (n :: rest) ∈ t.ancestors x) ∨
      t.commonAncestor (n :: rest) = root := by
  rw [commonAncestor]
  match hf : (t.ancestors n).find? _ with
  | none => exact .inr rfl
  | some d =>
    have hm := List.mem_of_find?_eq_some hf
    have hd := List.find?_some hf
    simp only [Bool.and_eq_true, Bool.or_eq_true, List.all_eq_true, isDescendant_iff] at hd
    rw [Option.getD_some]
    cases hd.left
    case inl hk =>
      refine .inl ⟨isCompound_iff.mp hk, fun x hx => ?_⟩
      cases (List.mem_cons.mp hx)
      case inl h =>
        subst h
        exact hm
      case inr hx => exact hd.right x hx
    case inr hp => exact .inr (wf.eq_root_of_parent_none hm (by simpa using hp))

-- A domain lies above the source and the targets of its transition.
theorem domain_spec (hu : u ∈ (t.node u.source).transitions) (hd : t.domain u = some d) :
    ((t.node d).kind = .compound ∨ d = root) ∧ d ∈ t.path u.source ∧
      ∀ x ∈ u.targets, d ∈ t.path x := by
  have hs := lt_size_of_transition hu
  have ht := wf.targets u hu
  simp only [domain] at hd
  split at hd
  · contradiction
  split at hd
  case isTrue hin =>
    simp only [Bool.and_eq_true, isCompound_iff, List.all_eq_true, isDescendant_iff] at hin
    obtain rfl := Option.some.inj hd
    exact ⟨.inl hin.left.right, self_mem_path, fun x hx => mem_path_of_ancestor (hin.right x hx)⟩
  case isFalse =>
    obtain rfl := Option.some.inj hd
    cases (wf.commonAncestor_spec (n := u.source) u.targets)
    case inl h =>
      have ha := h.right
      exact ⟨.inl h.left, mem_path_of_ancestor (ha _ (by simp)),
        fun x hx => mem_path_of_ancestor (ha x (by simp [hx]))⟩
    case inr hr =>
      rw [hr]
      exact ⟨.inr rfl, wf.root_mem_path hs, fun x hx => wf.root_mem_path (ht x hx)⟩

theorem domain_not_history (hu : u ∈ (t.node u.source).transitions) (hd : t.domain u = some d) :
    (t.node d).isHistory = false := by
  cases (wf.domain_spec hu hd).left
  case inl hk => simp [Node.isHistory, hk]
  case inr h =>
    subst h
    exact wf.root_not_history

end WellFormed

end Tree

namespace Selection

variable {t : Tree} {c : Configuration} {u v : Transition} {d e n : NodeIndex}

theorem conflict_iff : conflict t c u v = true ↔
    ∃ n ∈ c, t.exits u n = true ∧ t.exits v n = true := by
  simp [conflict, SortedSet.mem_iff]

theorem conflict_symm (h : conflict t c u v = true) : conflict t c v u = true := by
  have ⟨n, hn, hu, hv⟩ := conflict_iff.mp h
  exact conflict_iff.mpr ⟨n, hn, hv, hu⟩

theorem conflict_comm (t : Tree) (c : Configuration) (u v : Transition) :
    conflict t c u v = conflict t c v u :=
  Bool.eq_iff_iff.mpr ⟨conflict_symm, conflict_symm⟩

-- If one domain lies at or above another below which something is active, both are left there.
theorem conflict_of_domains (wf : t.WellFormed) (hu : t.domain u = some d)
    (hv : t.domain v = some e) (h : d ∈ t.path e) (hn : n ∈ c) (hen : e ∈ t.ancestors n) :
    conflict t c u v = true :=
  conflict_iff.mpr ⟨n, hn, Tree.exits_iff.mpr ⟨d, hu, wf.ancestors_of_path_ancestor h hen⟩,
    Tree.exits_iff.mpr ⟨e, hv, hen⟩⟩

-- Transitions from nested sources that both leave something conflict: their domains lie on the
-- way from the inner source to the root.
theorem conflict_of_sources (wf : t.WellFormed) (hu : u ∈ (t.node u.source).transitions)
    (hv : v ∈ (t.node v.source).transitions) (h : v.source ∈ t.path u.source)
    (hue : ∃ n ∈ c, t.exits u n = true) (hve : ∃ n ∈ c, t.exits v n = true) :
    conflict t c u v = true := by
  have ⟨n, hn, hun⟩ := hue
  have ⟨m, hm, hvm⟩ := hve
  have ⟨d, hd, hdn⟩ := Tree.exits_iff.mp hun
  have ⟨e, he, hem⟩ := Tree.exits_iff.mp hvm
  have hds := (wf.domain_spec hu hd).right.left
  have hes := wf.path_trans (wf.domain_spec hv he).right.left h
  cases (wf.comparable hds hes)
  case inl hde => exact conflict_of_domains wf hd he hde hm hem
  case inr hed => exact conflict_symm (conflict_of_domains wf he hd hed hn hdn)

end Selection

end Statechart
