import Statechart.Proofs.Resolve

-- Legal configurations, and which targets lead to one.

namespace Statechart

-- What the check of a configuration comes to.
structure Configuration.Legal (t : Tree) (c : Configuration) : Prop where
  root : Tree.root ∈ c
  parent {n p} : n ∈ c → (t.node n).parent = some p → p ∈ c
  region {n} : n ∈ c → (t.node n).kind = .compound → ∃ m ∈ t.regions n, m ∈ c
  unique {n a b} : n ∈ c → (t.node n).kind = .compound → a ∈ t.regions n → a ∈ c →
    b ∈ t.regions n → b ∈ c → a = b
  regions {n m} : n ∈ c → (t.node n).kind = .parallel → m ∈ t.regions n → m ∈ c
  not_history {n} : n ∈ c → (t.node n).isHistory = false

-- No two nodes of `K` lie at or below different children of a compound node.
def Tree.Compatible (t : Tree) (K : Set NodeIndex) : Prop :=
  ∀ n, (t.node n).kind = .compound → ∀ a ∈ t.children n, ∀ b ∈ t.children n,
    ∀ x ∈ K, a ∈ t.path x → ∀ y ∈ K, b ∈ t.path y → a = b

theorem Tree.WellFormed.compatible_of_subsingleton {t : Tree} {K : Set NodeIndex}
    (wf : t.WellFormed) (hK : K.Subsingleton) : t.Compatible K :=
  fun _ _ _ ha _ hb _ hx hax _ hy hby => wf.child_above_unique ha hb hax (hK hx hy ▸ hby)

namespace Configuration

variable {t : Tree} {c : Configuration} {n m p a b : NodeIndex}

theorem length_filter_eq_one {α : Type} {l : List α} {q : α → Bool} (hl : l.Nodup) :
    (l.filter q).length = 1 ↔
      (∃ a ∈ l, q a = true) ∧ ∀ a ∈ l, q a = true → ∀ b ∈ l, q b = true → a = b := by
  constructor
  case mp =>
    intro h
    have ⟨a, ha⟩ := List.length_eq_one_iff.mp h
    have hm {x} : x ∈ l ∧ q x = true ↔ x = a := by
      rw [← List.mem_filter, ha, List.mem_singleton]
    refine ⟨⟨a, hm.mpr rfl⟩, fun x hx hqx y hy hqy => ?_⟩
    rw [hm.mp ⟨hx, hqx⟩, hm.mp ⟨hy, hqy⟩]
  case mpr =>
    intro ⟨⟨a, ha, hqa⟩, hu⟩
    have hf := hl.filter q
    have hm : a ∈ l.filter q := List.mem_filter.mpr ⟨ha, hqa⟩
    match hl' : l.filter q with
    | [] => simp [hl'] at hm
    | [_] => rfl
    | x :: y :: _ =>
      have hx : x ∈ l.filter q := by simp [hl']
      have hy : y ∈ l.filter q := by simp [hl']
      have ⟨hxl, hqx⟩ := List.mem_filter.mp hx
      have ⟨hyl, hqy⟩ := List.mem_filter.mp hy
      simp [hl', hu x hxl hqx y hyl hqy] at hf

theorem regions_nodup (wf : t.WellFormed) (n : NodeIndex) : (t.regions n).Nodup :=
  (wf.increasing.imp fun h => h.ne).filter _

theorem isLegalAt_iff (wf : t.WellFormed) : c.isLegalAt t n = true ↔
    (∀ p, (t.node n).parent = some p → p ∈ c) ∧ (t.node n).isHistory = false ∧
      ((t.node n).kind = .parallel → ∀ m ∈ t.regions n, m ∈ c) ∧
      ((t.node n).kind = .compound → (∃ m ∈ t.regions n, m ∈ c) ∧
        ∀ a ∈ t.regions n, a ∈ c → ∀ b ∈ t.regions n, b ∈ c → a = b) := by
  have hp : (t.node n).parent.all c.contains = true ↔
      ∀ p, (t.node n).parent = some p → p ∈ c := by
    cases (t.node n).parent <;> simp
  have hl := length_filter_eq_one (q := c.contains) (regions_nodup wf n)
  simp only [SortedSet.contains_iff] at hl
  simp only [isLegalAt, Node.isHistory]
  rw [Bool.and_eq_true, hp]
  apply and_congr_right
  intro _
  cases hk : (t.node n).kind <;> simp [← hl, -Tree.mem_regions]

theorem isLegal_iff (wf : t.WellFormed) : c.isLegal t = true ↔ c.Legal t := by
  have ha : c.isLegal t = true ↔ Tree.root ∈ c ∧ ∀ n ∈ c, c.isLegalAt t n = true := by
    simp [isLegal, SortedSet.mem_iff]
  rw [ha]
  simp only [isLegalAt_iff wf]
  constructor
  case mp =>
    intro h
    have hl := h.right
    exact {
      root := h.left
      parent := fun hn hp => (hl _ hn).left _ hp
      region := fun hn hk => ((hl _ hn).right.right.right hk).left
      unique := fun hn hk ha hac hb hbc =>
        ((hl _ hn).right.right.right hk).right _ ha hac _ hb hbc
      regions := fun hn hk hm => (hl _ hn).right.right.left hk _ hm
      not_history := fun hn => (hl _ hn).right.left }
  case mpr =>
    intro h
    refine ⟨h.root, fun n hn => ⟨fun _ => h.parent hn, h.not_history hn,
      fun hk _ => h.regions hn hk, fun hk => ⟨h.region hn hk, ?_⟩⟩⟩
    exact fun _ ha hac _ hb hbc => h.unique hn hk ha hac hb hbc

namespace Legal

variable (hc : c.Legal t) (wf : t.WellFormed)
include hc wf

theorem mem_of_path (hn : n ∈ c) (ha : a ∈ t.path n) : a ∈ c := by
  induction n using Nat.strong_induction_on with
  | h n ih =>
    cases (Tree.mem_path.mp ha)
    case inl h =>
      subst h
      exact hn
    case inr ha =>
      have ⟨p, hp⟩ := wf.exists_parent_of_ancestor ha
      have hpc := hc.parent hn (wf.parent_of_child hp)
      exact ih p (wf.lt_of_child hp) hpc ((wf.child hp).right ▸ ha)

omit wf in
-- An active child is a region.
theorem mem_regions (hn : n ∈ c) (hp : n ∈ t.children p) : n ∈ t.regions p :=
  Tree.mem_regions.mpr ⟨hp, hc.not_history hn⟩

theorem child_unique (hk : (t.node n).kind = .compound) (ha : a ∈ t.children n) (hac : a ∈ c)
    (hb : b ∈ t.children n) (hbc : b ∈ c) : a = b :=
  hc.unique (hc.parent hac (wf.parent_of_child ha)) hk (hc.mem_regions hac ha) hac
    (hc.mem_regions hbc hb) hbc

theorem exists_active_child (hn : n ∈ c) (ha : a ∈ t.children n) : ∃ m ∈ t.children n, m ∈ c := by
  cases (wf.kind_of_children ha)
  case inl hk =>
    have ⟨m, hm, hmc⟩ := hc.region hn hk
    exact ⟨m, (Tree.mem_regions.mp hm).left, hmc⟩
  case inr hk =>
    have ⟨m, hm⟩ := wf.parallel hk
    exact ⟨m, (Tree.mem_regions.mp hm).left, hc.regions hn hk hm⟩

theorem compatible {K : Set NodeIndex} (hK : ∀ k ∈ K, k ∈ c) : t.Compatible K :=
  fun _ hk _ ha _ hb _ hx hax _ hy hby =>
    hc.child_unique wf hk ha (hc.mem_of_path wf (hK _ hx) hax) hb (hc.mem_of_path wf (hK _ hy) hby)

end Legal

-- Entering compatible targets leads to a legal configuration: neither the ancestors nor the
-- initial children add a second child to a compound node.
theorem legal_of_compatible {K : Set NodeIndex} (wf : t.WellFormed) (hK : t.Compatible K)
    (hr : ∃ k ∈ K, Tree.root ∈ t.path k) (hh : ∀ k ∈ K, (t.node k).isHistory = false)
    (he : ∀ n, n ∈ c ↔ t.Entered K n) : c.Legal t where
  root := by
    have ⟨k, hk, hkr⟩ := hr
    exact (he _).mpr (.above hk hkr)
  parent hn hp := (he _).mpr (wf.entered_closed.parent _ ((he _).mp hn) _ hp)
  regions hn hk hm := (he _).mpr (.region ((he _).mp hn) hk hm)
  not_history {n} hn := wf.entered_not_history hh ((he n).mp hn)
  region {n} hn hk := by
    by_cases hb : ∃ k ∈ K, n ∈ t.ancestors k
    case neg =>
      have ⟨i, hi, he'⟩ := wf.initial hk
      exact ⟨i, hi, (he i).mpr (.initial ((he n).mp hn) hk (by simpa using hb) he')⟩
    case pos =>
      have ⟨k, hkK, hkn⟩ := hb
      have ⟨m, hm, hmk⟩ := wf.exists_child_above hkn
      have hmh := wf.not_history_of_path (hh k hkK) hmk
      exact ⟨m, Tree.mem_regions.mpr ⟨hm, hmh⟩, (he m).mpr (.above hkK hmk)⟩
  unique {n a b} _ hk ha hac hb hbc := by
    have han := (Tree.mem_regions.mp ha).left
    have hbn := (Tree.mem_regions.mp hb).left
    rcases wf.entered_child hk han ((he a).mp hac), wf.entered_child hk hbn ((he b).mp hbc) with
      ⟨⟨x, hx, hax⟩ | ⟨hna, hia⟩, ⟨y, hy, hby⟩ | ⟨hnb, hib⟩⟩
    · exact hK n hk a han b hbn x hx hax y hy hby
    · exact absurd (wf.ancestors_of_ancestor_path (wf.mem_ancestors_of_child han) hax) (hnb x hx)
    · exact absurd (wf.ancestors_of_ancestor_path (wf.mem_ancestors_of_child hbn) hby) (hna y hy)
    · exact Option.some.inj (hia.symm.trans hib)

end Configuration

end Statechart
