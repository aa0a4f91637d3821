import Statechart.Proofs.Microstep

-- Which transitions never target nodes that cannot be active together, whatever is recorded. The
-- rules for building a tree see to this only as far as no history nodes are targeted.

namespace Statechart

namespace Tree

variable {t : Tree} {h : History} {l : List NodeIndex} {a b k m n p x y : NodeIndex}

-- The nodes lie in different regions of a parallel node.
def Apart (t : Tree) (x y : NodeIndex) : Prop :=
  ∃ q, (t.node q).kind = .parallel ∧
    ∃ a ∈ t.children q, ∃ b ∈ t.children q, a ≠ b ∧ a ∈ t.path x ∧ b ∈ t.path y

theorem Apart.symm (h : t.Apart x y) : t.Apart y x :=
  have ⟨q, hq, a, ha, b, hb, hne, hx, hy⟩ := h
  ⟨q, hq, b, hb, a, ha, hne.symm, hy, hx⟩

theorem orthogonal_apart (wf : t.WellFormed) (h : Definition.orthogonal t x y = true) :
    t.Apart x y := by
  simp only [Definition.orthogonal, Bool.and_eq_true, decide_eq_true_eq, Bool.not_eq_true',
    Option.any_eq_true] at h
  have ⟨⟨⟨hne, hxy⟩, hyx⟩, q, hf, hq⟩ := h
  have ⟨hy, before, after, hl, hbefore⟩ := List.find?_eq_some_iff_append.mp hf
  have hx := List.mem_of_find?_eq_some hf
  have ⟨a, ha, hax⟩ := wf.exists_child_above hx
  have ⟨b, hb, hby⟩ := wf.exists_child_above (isDescendant_iff.mp hy)
  refine ⟨q, isParallel_iff.mp hq, a, ha, b, hb, ?_, hax, hby⟩
  -- Otherwise the region would be a nearer common ancestor.
  rintro rfl
  have hax : a ∈ t.ancestors x := by
    apply (mem_path.mp hax).resolve_left
    rintro rfl
    simp_all [isDescendant]
  have hay : a ∈ t.ancestors y := by
    apply (mem_path.mp hby).resolve_left
    rintro rfl
    simp_all [isDescendant]
  have hqa := wf.lt_of_child ha
  have hd := (List.pairwise_cons.mp (wf.path_decreasing x)).right
  change (t.ancestors x).Pairwise (· > ·) at hd
  rw [hl] at hax hd
  cases (List.mem_append.mp hax)
  case inl hax => simpa [isDescendant_iff.mpr hay] using hbefore a hax
  case inr hax =>
    cases (List.mem_cons.mp hax)
    case inl h =>
      subst h
      exact hqa.false
    case inr hax =>
      have := (List.pairwise_cons.mp (List.pairwise_append.mp hd).right.left).left a hax
      exact absurd hqa (not_lt.mpr this.le)

-- Neither node tells another child of `n` than the other one does.
theorem Apart.child_unique (wf : t.WellFormed) (h : t.Apart x y)
    (hn : (t.node n).kind = .compound) (ha : a ∈ t.children n) (hax : a ∈ t.path x)
    (hb : b ∈ t.children n) (hby : b ∈ t.path y) : a = b := by
  have ⟨q, hq, c, hc, d, hd, hne, hcx, hdy⟩ := h
  have hnx := wf.ancestors_of_ancestor_path (wf.mem_ancestors_of_child ha) hax
  have hny := wf.ancestors_of_ancestor_path (wf.mem_ancestors_of_child hb) hby
  have hqx := wf.ancestors_of_ancestor_path (wf.mem_ancestors_of_child hc) hcx
  have hqy := wf.ancestors_of_ancestor_path (wf.mem_ancestors_of_child hd) hdy
  have hnq : n ≠ q := by
    rintro rfl
    simp [hn] at hq
  cases (wf.comparable (mem_path_of_ancestor hnx) (mem_path_of_ancestor hqx))
  case inl h =>
    have ⟨e, he, heq⟩ := wf.exists_child_above ((mem_path.mp h).resolve_left hnq)
    have hex := wf.path_trans heq (mem_path_of_ancestor hqx)
    have hey := wf.path_trans heq (mem_path_of_ancestor hqy)
    exact (wf.child_above_unique ha he hax hex).trans (wf.child_above_unique he hb hey hby)
  case inr h =>
    have ⟨e, he, hen⟩ := wf.exists_child_above ((mem_path.mp h).resolve_left hnq.symm)
    have hex := wf.path_trans hen (mem_path_of_ancestor hnx)
    have hey := wf.path_trans hen (mem_path_of_ancestor hny)
    exact absurd ((wf.child_above_unique hc he hcx hex).trans
      (wf.child_above_unique he hd hey hdy)) hne

theorem compatible_of_apart {K : Set NodeIndex} (wf : t.WellFormed)
    (hK : ∀ x ∈ K, ∀ y ∈ K, x ≠ y → t.Apart x y) : t.Compatible K := by
  intro n hn a ha b hb x hx hax y hy hby
  by_cases hxy : x = y
  case pos => exact wf.child_above_unique ha hb hax (hxy ▸ hby)
  case neg => exact (hK x hx y hy hxy).child_unique wf hn ha hax hb hby

theorem pairwise_apart (wf : t.WellFormed) (h : Definition.allOrthogonal t l = true) :
    l.Pairwise t.Apart :=
  (Definition.allOrthogonal_iff.mp h).imp (orthogonal_apart wf)

theorem allOrthogonal_apart (wf : t.WellFormed) (h : Definition.allOrthogonal t l = true)
    (hx : x ∈ l) (hy : y ∈ l) (hne : x ≠ y) : t.Apart x y :=
  have : Std.Symm t.Apart := ⟨fun _ _ => Apart.symm⟩
  (pairwise_apart wf h).forall hx hy hne

-- What the rules for building a tree leave out: the defaults of a history node can be active
-- together, and nothing else below its parent is targeted together with it.
structure HistoriesApart (t : Tree) : Prop where
  defaults {n : NodeIndex} : (t.node n).isHistory = true →
    Definition.allOrthogonal t (t.node n).defaults = true
  targets {n x y p : NodeIndex} {u : Transition} : u ∈ (t.node n).transitions → x ∈ u.targets →
    y ∈ u.targets → x ≠ y → (t.node x).isHistory = true → (t.node x).parent = some p →
    p ∉ t.ancestors y

-- A region of a parallel node above `x` is no history node unless `x` is a history node of it.
theorem region_not_history (wf : t.WellFormed) (ha : a ∈ t.children n) (hax : a ∈ t.path x)
    (hx : (t.node x).isHistory = true → (t.node x).parent ≠ some n) :
    (t.node a).isHistory = false := by
  cases (mem_path.mp hax)
  case inl h =>
    subst h
    by_contra hh
    exact hx (Bool.eq_true_of_not_eq_false hh) (wf.parent_of_child ha)
  case inr hax => exact wf.not_history_of_ancestor hax

-- What the targets stand for lies in the same regions as they do.
theorem Apart.standsFor (wf : t.WellFormed) (hh : h.Within t) (hxy : t.Apart x y)
    (hk : t.StandsFor h x k) (hm : t.StandsFor h y m)
    (hx : ∀ p, (t.node x).isHistory = true → (t.node x).parent = some p → p ∉ t.ancestors y)
    (hy : ∀ p, (t.node y).isHistory = true → (t.node y).parent = some p → p ∉ t.ancestors x) :
    t.Apart k m := by
  have ⟨q, hq, a, ha, b, hb, hne, hax, hby⟩ := hxy
  have hqx := wf.ancestors_of_ancestor_path (wf.mem_ancestors_of_child ha) hax
  have hqy := wf.ancestors_of_ancestor_path (wf.mem_ancestors_of_child hb) hby
  have hna := region_not_history wf ha hax fun hn hp => hx q hn hp hqy
  have hnb := region_not_history wf hb hby fun hn hp => hy q hn hp hqx
  exact ⟨q, hq, a, ha, b, hb, hne, wf.standsFor_above hh.below hk hax hna,
    wf.standsFor_above hh.below hm hby hnb⟩

-- What one target stands for can be active together.
theorem compatible_standsFor (wf : t.WellFormed) (ht : t.HistoriesApart) (hj : h.Joint t)
    (x : NodeIndex) : t.Compatible { k | t.StandsFor h x k } := by
  have hone {z} (hz : t.concreteTargets h x = [z]) : t.Compatible { k | t.StandsFor h x k } := by
    apply wf.compatible_of_subsingleton
    intro y hy z' hz'
    have hy := mem_concreteTargets.mpr hy
    have hz' := mem_concreteTargets.mpr hz'
    simp_all
  by_cases hx : (t.node x).isHistory = true
  case neg => exact hone (z := x) (by simp [concreteTargets, hx])
  case pos =>
    obtain ⟨p, hp⟩ := wf.exists_parent_of_history hx
    have hp := wf.parent_of_child hp
    cases hf : h.find? x with
    | some s =>
      have hs := hj x p s hx hp hf
      have he : { k | t.StandsFor h x k } = { k | k ∈ s } := by
        ext k
        simp [← mem_concreteTargets, concreteTargets, hx, hf, SortedSet.mem_iff]
      exact he ▸ hs
    | none =>
      by_cases hd : (t.node x).defaults = []
      case pos =>
        exact hone (z := (t.node p).initial.getD p) (by simp [concreteTargets, hx, hf, hd, hp])
      case neg =>
        apply compatible_of_apart wf
        intro y hy z hz hne
        have hm k : t.StandsFor h x k ↔ k ∈ (t.node x).defaults := by
          simp [← mem_concreteTargets, concreteTargets, hx, hf, hd]
        exact allOrthogonal_apart wf (ht.defaults hx) ((hm y).mp hy) ((hm z).mp hz) hne

-- Such a tree targets no nodes together that cannot be active together.
theorem compatible_concrete (wf : t.WellFormed) (ht : t.HistoriesApart) (hh : h.Within t)
    (hj : h.Joint t) {u : Transition} (hu : u ∈ (t.node n).transitions) :
    t.Compatible (t.Concrete h u.targets) := by
  intro m hm a ha b hb k ⟨x, hx, hk⟩ hak l ⟨y, hy, hl⟩ hbl
  by_cases hxy : x = y
  case pos =>
    subst hxy
    exact compatible_standsFor wf ht hj x m hm a ha b hb k hk hak l hl hbl
  case neg =>
    have hap := allOrthogonal_apart wf (wf.orthogonal u hu) hx hy hxy
    have := hap.standsFor wf hh hk hl (fun p => ht.targets hu hx hy hxy)
      (fun p => ht.targets hu hy hx (Ne.symm hxy))
    exact this.child_unique wf hm ha hak hb hbl

end Tree

end Statechart
