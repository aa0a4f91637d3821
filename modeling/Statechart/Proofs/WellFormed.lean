import Mathlib.Data.List.Basic
import Mathlib.Data.List.Infix
import Mathlib.Order.Basic
import Statechart.Definition.Structure

-- What every tree that was built satisfies, and how its nodes lie to each other.
-- `a ∈ t.ancestors n` says that `a` lies properly above `n`, and `a ∈ t.path n` that `a` is `n` or
-- lies above it.

namespace Statechart

theorem Definition.allOrthogonal_iff {t : Tree} {ns : List NodeIndex} :
    allOrthogonal t ns = true ↔ ns.Pairwise fun a b => orthogonal t a b = true := by
  induction ns with
  | nil => simp [allOrthogonal]
  | cons a rest ih => simp [allOrthogonal, ih]

namespace Tree

-- The nodes are numbered in document order, and their references to each other agree. Kinds
-- restrict what children a node has, and every reference leads to a node of the tree.
structure WellFormed (t : Tree) : Prop where
  size_pos : 0 < t.size
  root_ancestors : t.ancestors root = []
  -- The parent of a node is the node before it, or one above that.
  preorder {n} : n + 1 < t.size →
    ∃ p ∈ t.path n, t.ancestors (n + 1) = t.path p ∧ n + 1 ∈ t.children p
  child {n c} : c ∈ t.children n → c < t.size ∧ t.ancestors c = t.path n
  increasing {n} : (t.children n).Pairwise (· < ·)
  root_not_history : (t.node root).isHistory = false
  childless {n} : (t.node n).kind ≠ .compound → (t.node n).kind ≠ .parallel → t.children n = []
  initial {n} : (t.node n).kind = .compound → ∃ i ∈ t.regions n, (t.node n).initial = some i
  initial_compound {n i} : (t.node n).initial = some i → (t.node n).kind = .compound
  parallel {n} : (t.node n).kind = .parallel → ∃ c, c ∈ t.regions n
  source {n} : ∀ u ∈ (t.node n).transitions, u.source = n
  position {n} : ∀ (k : Nat) (u : Transition), (t.node n).transitions[k]? = some u → u.position = k
  targets {n} : ∀ u ∈ (t.node n).transitions, ∀ x ∈ u.targets, x < t.size
  orthogonal {n} : ∀ u ∈ (t.node n).transitions, Definition.allOrthogonal t u.targets = true
  defaults {n p} : (t.node n).isHistory = true → (t.node n).parent = some p →
    ∀ d ∈ (t.node n).defaults, p ∈ t.ancestors d ∧ (t.node d).isHistory = false

variable {t : Tree} {a b c n : NodeIndex}

@[simp] theorem isDescendant_iff : t.isDescendant n a = true ↔ a ∈ t.ancestors n := by
  simp [isDescendant]

@[simp] theorem mem_path : a ∈ t.path n ↔ a = n ∨ a ∈ t.ancestors n := by
  simp [path]

theorem self_mem_path : n ∈ t.path n := by simp

theorem mem_path_of_ancestor (h : a ∈ t.ancestors n) : a ∈ t.path n := by simp [h]

@[simp] theorem mem_regions :
    c ∈ t.regions n ↔ c ∈ t.children n ∧ (t.node c).isHistory = false := by
  simp [regions]

@[simp] theorem isCompound_iff : t.isCompound n = true ↔ (t.node n).kind = .compound := by
  simp [isCompound]

@[simp] theorem isParallel_iff : t.isParallel n = true ↔ (t.node n).kind = .parallel := by
  simp [isParallel]

-- Indices beyond the tree stand for a node without relatives.
theorem node_of_size_le (h : t.size ≤ n) : t.node n = {} := by
  simp [node, Array.getElem?_eq_none h]

theorem lt_size_of_kind (h : (t.node n).kind ≠ .atomic) : n < t.size := by
  by_contra hn
  simp [node_of_size_le (not_lt.mp hn)] at h

theorem lt_size_of_children (h : c ∈ t.children n) : n < t.size := by
  by_contra hn
  simp [children, node_of_size_le (not_lt.mp hn)] at h

theorem depth_lt_height (hn : n < t.size) : (t.node n).depth < t.height := by
  have hle (l : List Node) (h : Nat) : h ≤ l.foldl (fun h n => max h (n.depth + 1)) h ∧
      ∀ m ∈ l, m.depth < l.foldl (fun h n => max h (n.depth + 1)) h := by
    induction l generalizing h with
    | nil => simp
    | cons m rest ih =>
      have ⟨hr, hm⟩ := ih (max h (m.depth + 1))
      rw [List.foldl_cons]
      refine ⟨(le_max_left _ _).trans hr, fun k hk => ?_⟩
      cases (List.mem_cons.mp hk)
      case inl h =>
        subst h
        exact (le_max_right _ _).trans hr
      case inr hk => exact hm k hk
  rw [height, ← Array.foldl_toList]
  apply (hle t.nodes.toList 0).right
  rw [node, Array.getElem?_eq_getElem hn, Option.getD_some]
  exact Array.getElem_mem_toList hn

namespace WellFormed

variable (wf : t.WellFormed)
include wf

-- Putting nodes in order of their depth loses none.
theorem mem_shallowestFirst {ns : List NodeIndex} : n ∈ t.shallowestFirst ns ↔ n ∈ ns := by
  have hd : (t.node n).depth < t.height := by
    by_cases hn : n < t.size
    case pos => exact depth_lt_height hn
    case neg =>
      rw [node_of_size_le (not_lt.mp hn)]
      exact Nat.zero_lt_of_lt (depth_lt_height wf.size_pos)
  simp [shallowestFirst, hd]

theorem ancestors_lt (h : a ∈ t.ancestors n) : a < n := by
  induction n using Nat.strong_induction_on generalizing a with
  | h n ih =>
    cases n
    case zero => simp [show t.ancestors 0 = [] from wf.root_ancestors] at h
    case succ n =>
      by_cases hn : n + 1 < t.size
      case neg => simp [ancestors, node_of_size_le (not_lt.mp hn)] at h
      have ⟨p, hp, he, _⟩ := wf.preorder hn
      have hpn : p ≤ n := by
        cases (mem_path.mp hp)
        case inl h =>
          subst h
          exact le_rfl
        case inr hp => exact (ih n (Nat.lt_succ_self n) hp).le
      cases (mem_path.mp (he ▸ h))
      case inl h =>
        subst h
        exact Nat.lt_succ_of_le hpn
      case inr ha => exact (ih p (Nat.lt_succ_of_le hpn) ha).trans (Nat.lt_succ_of_le hpn)

theorem ancestors_ne (h : a ∈ t.ancestors n) : a ≠ n := (wf.ancestors_lt h).ne

theorem lt_of_child (h : c ∈ t.children n) : n < c := by
  apply wf.ancestors_lt
  simp [(wf.child h).right]

theorem mem_ancestors_of_child (h : c ∈ t.children n) : n ∈ t.ancestors c := by
  simp [(wf.child h).right]

theorem parent_of_child (h : c ∈ t.children n) : (t.node c).parent = some n := by
  have := (wf.child h).right
  simp_all [Node.parent, ancestors, path]

-- Every node but the root is among the children of its parent.
theorem exists_parent (hn : n ≠ root) (hs : n < t.size) : ∃ p, n ∈ t.children p := by
  cases n
  case zero => contradiction
  case succ n =>
    have ⟨p, _, _, h⟩ := wf.preorder hs
    exact ⟨p, h⟩

theorem exists_parent_of_ancestor (h : a ∈ t.ancestors n) : ∃ p, n ∈ t.children p := by
  apply wf.exists_parent
  · rintro rfl
    simp [wf.root_ancestors] at h
  · by_contra hs
    simp [ancestors, node_of_size_le (not_lt.mp hs)] at h

theorem exists_parent_of_history (h : (t.node n).isHistory = true) : ∃ p, n ∈ t.children p := by
  apply wf.exists_parent
  · rintro rfl
    simp [wf.root_not_history] at h
  · apply lt_size_of_kind
    intro hk
    simp [Node.isHistory, hk] at h

theorem parent_eq_some : (t.node n).parent = some a ↔ n ∈ t.children a := by
  refine ⟨fun h => ?_, wf.parent_of_child⟩
  have ha : a ∈ t.ancestors n := List.mem_of_head? h
  have ⟨p, hp⟩ := wf.exists_parent_of_ancestor ha
  have := wf.parent_of_child hp
  simp_all

theorem parent_unique (h₁ : c ∈ t.children a) (h₂ : c ∈ t.children b) : a = b := by
  have h₁ := wf.parent_of_child h₁
  have h₂ := wf.parent_of_child h₂
  simp_all

theorem path_suffix (h : a ∈ t.path n) : t.path a <:+ t.path n := by
  induction n using Nat.strong_induction_on with
  | h n ih =>
    cases (mem_path.mp h)
    case inl h =>
      subst h
      exact List.suffix_refl _
    case inr ha =>
      have ⟨p, hp⟩ := wf.exists_parent_of_ancestor ha
      have he := (wf.child hp).right
      have hs := ih p (wf.lt_of_child hp) (he ▸ ha)
      exact hs.trans (he ▸ List.suffix_cons n _)

theorem path_subset (h : a ∈ t.path n) : t.path a ⊆ t.path n := (wf.path_suffix h).subset

theorem path_trans (h₁ : a ∈ t.path b) (h₂ : b ∈ t.path n) : a ∈ t.path n :=
  wf.path_subset h₂ h₁

theorem ancestors_of_path_ancestor (h₁ : a ∈ t.path b) (h₂ : b ∈ t.ancestors n) :
    a ∈ t.ancestors n := by
  have ⟨p, hp⟩ := wf.exists_parent_of_ancestor h₂
  rw [(wf.child hp).right] at h₂ ⊢
  exact wf.path_trans h₁ h₂

theorem ancestors_of_ancestor_path (h₁ : a ∈ t.ancestors b) (h₂ : b ∈ t.path n) :
    a ∈ t.ancestors n := by
  cases (mem_path.mp h₂)
  case inl h =>
    subst h
    exact h₁
  case inr h₂ => exact wf.ancestors_of_path_ancestor (mem_path_of_ancestor h₁) h₂

theorem path_le (h : a ∈ t.path n) : a ≤ n := by
  cases (mem_path.mp h)
  case inl h =>
    subst h
    exact le_rfl
  case inr h => exact (wf.ancestors_lt h).le

-- Two nodes above a third lie above each other.
theorem comparable (ha : a ∈ t.path n) (hb : b ∈ t.path n) : a ∈ t.path b ∨ b ∈ t.path a := by
  cases (List.suffix_or_suffix_of_suffix (wf.path_suffix ha) (wf.path_suffix hb))
  case inl h => exact .inl (h.subset self_mem_path)
  case inr h => exact .inr (h.subset self_mem_path)

theorem path_decreasing (n : NodeIndex) : (t.path n).Pairwise (· > ·) := by
  induction n using Nat.strong_induction_on with
  | h n ih =>
    refine List.pairwise_cons.mpr ⟨fun _ => wf.ancestors_lt, ?_⟩
    cases hp : t.ancestors n with
    | nil => exact .nil
    | cons p _ =>
      have ⟨q, hq⟩ := wf.exists_parent_of_ancestor (n := n) (a := p) (by simp [hp])
      rw [← hp, (wf.child hq).right]
      exact ih q (wf.lt_of_child hq)

theorem path_nodup (n : NodeIndex) : (t.path n).Nodup := (wf.path_decreasing n).imp fun h => h.ne'

theorem root_mem_path (hn : n < t.size) : root ∈ t.path n := by
  induction n using Nat.strong_induction_on with
  | h n ih =>
    by_cases h : n = root
    case pos => simp [h]
    have ⟨p, hp⟩ := wf.exists_parent h hn
    have := ih p (wf.lt_of_child hp) (lt_size_of_children hp)
    exact mem_path_of_ancestor ((wf.child hp).right ▸ this)

-- A node below `a` lies at or below exactly one child of `a`.
theorem exists_child_above (h : a ∈ t.ancestors n) : ∃ c ∈ t.children a, c ∈ t.path n := by
  induction n using Nat.strong_induction_on with
  | h n ih =>
    have ⟨p, hp⟩ := wf.exists_parent_of_ancestor h
    rw [(wf.child hp).right] at h
    cases (mem_path.mp h)
    case inl h =>
      subst h
      exact ⟨n, hp, self_mem_path⟩
    case inr h =>
      have ⟨c, hc, hcp⟩ := ih p (wf.lt_of_child hp) h
      exact ⟨c, hc, mem_path_of_ancestor ((wf.child hp).right ▸ hcp)⟩

theorem child_not_above_child (hb : b ∈ t.children a) (hc : c ∈ t.children a) :
    b ∉ t.ancestors c := by
  rw [(wf.child hc).right]
  intro h
  exact absurd (wf.path_le h) (not_le.mpr (wf.lt_of_child hb))

theorem child_above_unique (hb : b ∈ t.children a) (hc : c ∈ t.children a)
    (hbn : b ∈ t.path n) (hcn : c ∈ t.path n) : b = c := by
  cases (wf.comparable hbn hcn)
  case inl h => exact (mem_path.mp h).resolve_right (wf.child_not_above_child hb hc)
  case inr h => exact ((mem_path.mp h).resolve_right (wf.child_not_above_child hc hb)).symm

-- A node above a descendant of `a` lies below the child of `a` on the way, or at or above `a`.
theorem path_child_or_path (hc : c ∈ t.children a) (hcn : c ∈ t.path n) (hb : b ∈ t.path n) :
    c ∈ t.path b ∨ b ∈ t.path a := by
  cases (wf.comparable hcn hb)
  case inl h => exact .inl h
  case inr h =>
    cases (mem_path.mp h)
    case inl h =>
      subst h
      exact .inl self_mem_path
    case inr h => exact .inr ((wf.child hc).right ▸ h)

theorem path_child (hc : c ∈ t.children n) (ha : a ∈ t.path c) : c = a ∨ a ∈ t.path n :=
  (mem_path.mp ha).imp Eq.symm fun h => (wf.child hc).right ▸ h

theorem not_history_of_children (h : c ∈ t.children n) : (t.node n).isHistory = false := by
  have := wf.childless (n := n)
  simp only [Node.isHistory]
  cases hk : (t.node n).kind <;> simp_all

theorem not_history_of_ancestor (h : a ∈ t.ancestors n) : (t.node a).isHistory = false :=
  have ⟨_, hc, _⟩ := wf.exists_child_above h
  wf.not_history_of_children hc

theorem not_history_of_path (hn : (t.node n).isHistory = false) (h : a ∈ t.path n) :
    (t.node a).isHistory = false := by
  cases (mem_path.mp h)
  case inl h =>
    subst h
    exact hn
  case inr h => exact wf.not_history_of_ancestor h

theorem kind_of_children (h : c ∈ t.children n) :
    (t.node n).kind = .compound ∨ (t.node n).kind = .parallel := by
  by_contra hk
  have := wf.childless (not_or.mp hk).left (not_or.mp hk).right
  simp_all

-- The descendants of a node follow it without a gap.
theorem ancestors_of_between (hc : a ∈ t.ancestors c) (hab : a < b) (hbc : b ≤ c) :
    a ∈ t.ancestors b := by
  induction c, hbc using Nat.le_induction with
  | base => exact hc
  | succ c hbc ih =>
    apply ih
    have ⟨q, hq⟩ := wf.exists_parent_of_ancestor hc
    have ⟨p, hp, he, _⟩ := wf.preorder (wf.child hq).left
    have ha : a ∈ t.path c := wf.path_trans (he ▸ hc) hp
    exact (mem_path.mp ha).resolve_left (hab.trans_le hbc).ne

theorem path_of_between (hb : a ≤ b) (hbc : b ≤ c) (hc : a ∈ t.path c) : a ∈ t.path b := by
  cases (mem_path.mp hc)
  case inl h =>
    subst h
    simp [le_antisymm hb hbc]
  case inr hc =>
    cases hb.eq_or_lt
    case inl h =>
      subst h
      exact self_mem_path
    case inr hb => exact mem_path_of_ancestor (wf.ancestors_of_between hc hb hbc)

end WellFormed

end Tree

end Statechart
