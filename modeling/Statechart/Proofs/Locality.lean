import Statechart.Proofs.Microstep

-- Microsteps act locally: what becomes active below the domain of a transition depends on the
-- targets of this transition alone, and nothing changes outside of the domains.

namespace Statechart

namespace Tree

variable {t : Tree} {K : Set NodeIndex} {d n : NodeIndex}

-- `d` itself, and what of `K` lies below it.
def targetsBelow (t : Tree) (K : Set NodeIndex) (d : NodeIndex) : Set NodeIndex :=
  { k | k = d ∨ k ∈ K ∧ d ∈ t.ancestors k }

-- Whatever else is targeted: at and below an entered node only the targets below it matter.
theorem WellFormed.entered_iff_below (wf : t.WellFormed) (hd : t.Entered K d) (hn : d ∈ t.path n) :
    t.Entered K n ↔ t.Entered (t.targetsBelow K d) n := by
  have hmem {k p} (hk : k ∈ K) (hp : d ∈ t.path p) (hpk : p ∈ t.ancestors k) :
      k ∈ t.targetsBelow K d := .inr ⟨hk, wf.ancestors_of_path_ancestor hp hpk⟩
  have hself : d ∈ t.targetsBelow K d := .inl rfl
  have hparent {p n} (hnp : n ∈ t.children p) (hn : d ∈ t.path n) (hne : n ≠ d) : d ∈ t.path p :=
    (wf.path_child hnp hn).resolve_left hne
  constructor
  case mp =>
    intro he
    induction he with
    | @above k n hk hnk =>
      by_cases h : n = d
      case pos => exact .above hself (h ▸ self_mem_path)
      case neg =>
        have hdn := (mem_path.mp hn).resolve_left (Ne.symm h)
        exact .above (.inr ⟨hk, wf.ancestors_of_ancestor_path hdn hnk⟩) hnk
    | @region p n hp hk hr ih =>
      by_cases h : n = d
      case pos => exact .above hself (h ▸ self_mem_path)
      case neg => exact .region (ih (hparent (mem_regions.mp hr).left hn h)) hk hr
    | @initial p n hp hk hb hi ih =>
      by_cases h : n = d
      case pos => exact .above hself (h ▸ self_mem_path)
      case neg =>
        have hdp := hparent (mem_regions.mp (wf.initial_mem_regions hi)).left hn h
        refine .initial (ih hdp) hk (fun k hkK hpk => ?_) hi
        cases hkK
        case inl hkd => exact absurd (wf.ancestors_lt (hkd ▸ hpk)) (wf.path_le hdp).not_gt
        case inr hkK => exact hb k hkK.left hpk
  case mpr =>
    intro he
    induction he with
    | @above k n hk hnk =>
      cases hk
      case inl h =>
        subst h
        exact wf.entered_closed.path_subset wf hd hnk
      case inr hk => exact .above hk.left hnk
    | @region p n hp hk hr ih =>
      by_cases h : n = d
      case pos => exact h ▸ hd
      case neg => exact .region (ih (hparent (mem_regions.mp hr).left hn h)) hk hr
    | @initial p n hp hk hb hi ih =>
      by_cases h : n = d
      case pos => exact h ▸ hd
      case neg =>
        have hdp := hparent (mem_regions.mp (wf.initial_mem_regions hi)).left hn h
        exact .initial (ih hdp) hk (fun k hkK hpk => hb k (hmem hkK hdp hpk) hpk) hi

end Tree

namespace Configuration.Legal

variable {t : Tree} {c c' c'' : Configuration} {d : NodeIndex}

-- What lies below a node can be taken from another legal configuration.
theorem patch (wf : t.WellFormed) (hc : c.Legal t) (hc' : c'.Legal t) (hd : d ∈ c) (hd' : d ∈ c')
    (h : ∀ n, n ∈ c'' ↔ if d ∈ t.ancestors n then n ∈ c else n ∈ c') : c''.Legal t := by
  have hbelow {n p} (hp : n ∈ t.children p) : d ∈ t.ancestors n ↔ d ∈ t.path p := by
    rw [(wf.child hp).right]
  have hmem {n} : n ∈ c'' → n ∈ c ∧ d ∈ t.path n ∨ n ∈ c' ∧ d ∉ t.ancestors n := by
    intro hn
    have hn := (h n).mp hn
    split at hn
    case isTrue hdn => exact .inl ⟨hn, Tree.mem_path_of_ancestor hdn⟩
    case isFalse hdn => exact .inr ⟨hn, hdn⟩
  -- The children of a node all come from the same configuration, in which the node is active.
  have hside {n} (hn : n ∈ c'') : ∃ b : Configuration, b.Legal t ∧ n ∈ b ∧
      ∀ m ∈ t.children n, (m ∈ c'' ↔ m ∈ b) := by
    by_cases hdn : d ∈ t.path n
    case pos =>
      have hnc : n ∈ c := by
        cases (hmem hn)
        case inl hn => exact hn.left
        case inr hn => exact (Tree.mem_path.mp hdn).resolve_right hn.right ▸ hd
      refine ⟨c, hc, hnc, fun m hm => ?_⟩
      rw [h, if_pos ((hbelow hm).mpr hdn)]
    case neg =>
      have hnc : n ∈ c' := by
        cases (hmem hn)
        case inl hn => exact absurd hn.right hdn
        case inr hn => exact hn.left
      refine ⟨c', hc', hnc, fun m hm => ?_⟩
      rw [h, if_neg fun hdm => hdn ((hbelow hm).mp hdm)]
  exact {
    root := by
      rw [h, if_neg (by simp [wf.root_ancestors])]
      exact hc'.root
    parent := by
      intro n p hn hp
      have hnp := wf.parent_eq_some.mp hp
      rw [h]
      split
      case isTrue hdp =>
        cases (hmem hn)
        case inl hn => exact hc.parent hn.left hp
        case inr hn => exact absurd ((hbelow hnp).mpr (Tree.mem_path_of_ancestor hdp)) hn.right
      case isFalse hdp =>
        by_cases hdn : d ∈ t.ancestors n
        case pos =>
          have hpd := (Tree.mem_path.mp ((hbelow hnp).mp hdn)).resolve_right hdp
          exact hpd ▸ hd'
        case neg => exact hc'.parent (by simpa [hdn] using (h n).mp hn) hp
    region := by
      intro n hn hk
      have ⟨b, hb, hnb, hm⟩ := hside hn
      have ⟨m, hmr, hmb⟩ := hb.region hnb hk
      exact ⟨m, hmr, (hm m (Tree.mem_regions.mp hmr).left).mpr hmb⟩
    unique := by
      intro n x y hn hk hx hxc hy hyc
      have ⟨b, hb, hnb, hm⟩ := hside hn
      exact hb.unique hnb hk hx ((hm x (Tree.mem_regions.mp hx).left).mp hxc)
        hy ((hm y (Tree.mem_regions.mp hy).left).mp hyc)
    regions := by
      intro n m hn hk hmr
      have ⟨b, hb, hnb, hm⟩ := hside hn
      exact (hm m (Tree.mem_regions.mp hmr).left).mpr (hb.regions hnb hk hmr)
    not_history := by
      intro n hn
      have ⟨b, hb, hnb, _⟩ := hside hn
      exact hb.not_history hnb }

end Configuration.Legal

namespace Selected

variable {t : Tree} {c : Configuration} {us : List Transition} {u v : Transition}
  {d d' n : NodeIndex} (hs : Selected t c us) (wf : t.WellFormed) (hc : c.Legal t)
include hs wf hc

-- Different transitions leave separate parts of the tree.
theorem domains_apart (hu : u ∈ us) (hv : v ∈ us) (hne : u ≠ v) (hd : t.domain u = some d)
    (hd' : t.domain v = some d') (hn : d ∈ t.ancestors n) : d ∉ t.path d' ∧ d' ∉ t.path d := by
  constructor
  case left =>
    intro h
    cases (Tree.mem_path.mp h)
    case inl h =>
      subst h
      exact hs.not_above_domain wf hc hu hv hne hd hd' Tree.self_mem_path hn
    case inr h =>
      have ⟨m, hm⟩ := hs.exists_below_domain wf hv hd' h
      exact hs.not_above_domain wf hc hu hv hne hd hd' (Tree.mem_path_of_ancestor h) hm
  case right =>
    intro h
    exact hs.not_above_domain wf hc hv hu hne.symm hd' hd h hn

theorem not_both_above (hu : u ∈ us) (hv : v ∈ us) (hne : u ≠ v) (hd : t.domain u = some d)
    (hd' : t.domain v = some d') (hn : d ∈ t.ancestors n) : d' ∉ t.path n := by
  intro h
  have hne := hs.domains_apart wf hc hu hv hne hd hd' hn
  cases (wf.comparable (Tree.mem_path_of_ancestor hn) h)
  case inl h => exact hne.left h
  case inr h => exact hne.right h

theorem exits_unique (hu : u ∈ us) (hv : v ∈ us) (hun : t.exits u n = true)
    (hvn : t.exits v n = true) : u = v := by
  by_contra hne
  have ⟨d, hd, hdn⟩ := Tree.exits_iff.mp hun
  have ⟨d', hd', hdn'⟩ := Tree.exits_iff.mp hvn
  exact hs.not_both_above wf hc hu hv hne hd hd' hdn (Tree.mem_path_of_ancestor hdn')

-- No transition leaves a domain.
theorem domain_remains (hu : u ∈ us) (hv : v ∈ us) (hd : t.domain u = some d) :
    t.exits v d = false := by
  by_contra hx
  have ⟨d', hd', hdd⟩ := Tree.exits_iff.mp (Bool.eq_true_of_not_eq_false hx)
  by_cases hne : u = v
  case pos =>
    subst hne
    obtain rfl := Option.some.inj (hd.symm.trans hd')
    exact wf.ancestors_ne hdd rfl
  case neg =>
    have ⟨n, hn⟩ := hs.exists_below_domain wf hu hd hdd
    exact (hs.domains_apart wf hc hu hv hne hd hd' hn).right (Tree.mem_path_of_ancestor hdd)

end Selected

namespace Microstep

-- `u` leads to `n`, where `h` is the history recorded on the way out.
def Enters (t : Tree) (h : History) (u : Transition) (n : NodeIndex) : Prop :=
  ∃ d, t.domain u = some d ∧ d ∈ t.ancestors n ∧
    t.Entered (t.targetsBelow (t.Concrete h u.targets) d) n

variable {t : Tree} {c : Configuration} {h : History} {us : List Transition} {u v : Transition}
  {d n : NodeIndex}

theorem Enters.exits (he : Enters t h u n) : t.exits u n = true :=
  have ⟨d, hd, hn, _⟩ := he
  Tree.exits_iff.mpr ⟨d, hd, hn⟩

section Locality

variable (wf : t.WellFormed) (hc : c.Legal t) (hh : h.Below t) (hs : Selected t c us)
include wf hc hh hs

-- Below the domain of `u` nothing is targeted but what `u` targets.
theorem targetsBelow_seeds (hu : u ∈ us) (hd : t.domain u = some d) :
    t.targetsBelow (t.Concrete h (seeds t c us)) d =
      t.targetsBelow (t.Concrete h u.targets) d := by
  ext k
  apply or_congr_right
  rw [mem_concrete_seeds hc]
  constructor
  case mp =>
    rintro ⟨hk | ⟨v, hv, hk⟩, hdk⟩
    case inl =>
      have hx := (mem_remaining.mp hk).right u hu
      simp [Tree.exits_iff.mpr ⟨d, hd, hdk⟩] at hx
    case inr =>
      by_cases hne : u = v
      case pos => exact ⟨hne ▸ hk, hdk⟩
      case neg =>
        have ⟨d', hd', hk'⟩ := hs.exists_domain wf hh hv hk
        exact absurd hk' (hs.not_both_above wf hc hu hv hne hd hd' hdk)
  case mpr => exact fun hk => ⟨.inr ⟨u, hu, hk.left⟩, hk.right⟩

-- Outside of the domains only what was active before is entered.
theorem mem_of_entered (he : t.Entered (t.Concrete h (seeds t c us)) n)
    (hx : ∀ u ∈ us, t.exits u n = false) : n ∈ c := by
  induction he with
  | @above k n hk hn =>
    cases ((mem_concrete_seeds hc).mp hk)
    case inl hk => exact hc.mem_of_path wf (mem_remaining.mp hk).left hn
    case inr hk =>
      have ⟨u, hu, hk⟩ := hk
      have ⟨d, hd, hdk⟩ := hs.exists_domain wf hh hu hk
      cases (wf.comparable hn hdk)
      case inl hnd => exact hc.mem_of_path wf (hs.active hu hd) hnd
      case inr hdn =>
        cases (Tree.mem_path.mp hdn)
        case inl h => exact h ▸ hs.active hu hd
        case inr hdn =>
          have := hx u hu
          simp [Tree.exits_iff.mpr ⟨d, hd, hdn⟩] at this
  | @region p n _ hk hr ih =>
    refine hc.regions (ih fun u hu => ?_) hk hr
    by_contra hxp
    have ⟨d, hd, hdp⟩ := Tree.exits_iff.mp (Bool.eq_true_of_not_eq_false hxp)
    have hdn := wf.ancestors_of_ancestor_path hdp (Tree.mem_path_of_ancestor
      (wf.mem_ancestors_of_child (Tree.mem_regions.mp hr).left))
    have := hx u hu
    simp [Tree.exits_iff.mpr ⟨d, hd, hdn⟩] at this
  | @initial p n _ hk hb hi ih =>
    have hpn := (Tree.mem_regions.mp (wf.initial_mem_regions hi)).left
    have hout {d u} (hu : u ∈ us) (hd : t.domain u = some d) : d ∉ t.path p := by
      intro hdp
      have hdn := (wf.child hpn).right ▸ hdp
      have := hx u hu
      simp [Tree.exits_iff.mpr ⟨d, hd, hdn⟩] at this
    have hp : p ∈ c := by
      refine ih fun u hu => ?_
      by_contra hxp
      have ⟨d, hd, hdp⟩ := Tree.exits_iff.mp (Bool.eq_true_of_not_eq_false hxp)
      exact hout hu hd (Tree.mem_path_of_ancestor hdp)
    -- The child that was active stays active, so that `p` does not enter another one.
    have ⟨m, hm, hmc⟩ := hc.region hp hk
    have hmp := (Tree.mem_regions.mp hm).left
    have hmr : m ∈ remaining t c us := by
      refine mem_remaining.mpr ⟨hmc, fun u hu => ?_⟩
      by_contra hxm
      have ⟨d, hd, hdm⟩ := Tree.exits_iff.mp (Bool.eq_true_of_not_eq_false hxm)
      exact hout hu hd ((wf.child hmp).right ▸ hdm)
    exact absurd (wf.mem_ancestors_of_child hmp) (hb m ((mem_concrete_seeds hc).mpr (.inl hmr)))

-- The next configuration consists of what stays active and what each transition leads to.
theorem mem_next : n ∈ next t c h us ↔ n ∈ remaining t c us ∨ ∃ u ∈ us, Enters t h u n := by
  simp only [next]
  split
  case isTrue ht =>
    rw [or_iff_left]
    rintro ⟨u, hu, d, hd, _⟩
    simp [Tree.domain_eq_none.mpr (List.all_eq_true.mp ht u hu)] at hd
  case isFalse =>
    change n ∈ t.resolve h (seeds t c us) ↔ _
    rw [wf.mem_resolve]
    have hrem {m} (hm : m ∈ remaining t c us) : t.Entered (t.Concrete h (seeds t c us)) m :=
      .above ((mem_concrete_seeds hc).mpr (.inl hm)) Tree.self_mem_path
    have hlocal {u d} (hu : u ∈ us) (hd : t.domain u = some d) (hn : d ∈ t.ancestors n) :
        t.Entered (t.Concrete h (seeds t c us)) n ↔
          t.Entered (t.targetsBelow (t.Concrete h u.targets) d) n := by
      have hdr : d ∈ remaining t c us :=
        mem_remaining.mpr ⟨hs.active hu hd, fun v hv => hs.domain_remains wf hc hu hv hd⟩
      rw [wf.entered_iff_below (hrem hdr) (Tree.mem_path_of_ancestor hn),
        targetsBelow_seeds wf hc hh hs hu hd]
    constructor
    case mp =>
      intro he
      by_cases hx : ∀ u ∈ us, t.exits u n = false
      case pos => exact .inl (mem_remaining.mpr ⟨mem_of_entered wf hc hh hs he hx, hx⟩)
      case neg =>
        obtain ⟨u, hx⟩ := not_forall.mp hx
        obtain ⟨hu, hx⟩ := Classical.not_imp.mp hx
        obtain ⟨d, hd, hn⟩ := Tree.exits_iff.mp (Bool.eq_true_of_not_eq_false hx)
        exact .inr ⟨u, hu, d, hd, hn, (hlocal hu hd hn).mp he⟩
    case mpr =>
      rintro (hn | ⟨u, hu, d, hd, hn, he⟩)
      · exact hrem hn
      · exact (hlocal hu hd hn).mpr he

-- Below the domain of `u` only `u` decides.
theorem mem_next_of_exits (hu : u ∈ us) (hx : t.exits u n = true) :
    n ∈ next t c h us ↔ Enters t h u n := by
  rw [mem_next wf hc hh hs]
  constructor
  case mp =>
    rintro (hn | ⟨v, hv, he⟩)
    · simp [(mem_remaining.mp hn).right u hu] at hx
    · exact hs.exits_unique wf hc hu hv hx he.exits ▸ he
  case mpr => exact fun he => .inr ⟨u, hu, he⟩

theorem mem_next_of_not_exits (hx : ∀ u ∈ us, t.exits u n = false) :
    n ∈ next t c h us ↔ n ∈ c := by
  rw [mem_next wf hc hh hs, mem_remaining, or_iff_left, and_iff_left hx]
  rintro ⟨u, hu, he⟩
  exact absurd he.exits (by simp [hx u hu])

end Locality

end Microstep

end Statechart
