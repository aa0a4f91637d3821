import Mathlib.Order.Bounds.Basic
import Statechart.Configuration.Resolve
import Statechart.Proofs.WellFormed

-- What is entered when some nodes are targeted: one pass over the tree finds the least set that is
-- closed under the rules of entering.

namespace Statechart

namespace Tree

-- The nodes that a target stands for.
inductive StandsFor (t : Tree) (h : History) (n : NodeIndex) : NodeIndex → Prop
  | itself : (t.node n).isHistory = false → StandsFor t h n n
  | recorded {s k} : (t.node n).isHistory = true → h.find? n = some s → k ∈ s → StandsFor t h n k
  | default {k} : (t.node n).isHistory = true → h.find? n = none → k ∈ (t.node n).defaults →
      StandsFor t h n k
  | initial {p i} : (t.node n).isHistory = true → h.find? n = none → (t.node n).defaults = [] →
      (t.node n).parent = some p → (t.node p).initial = some i → StandsFor t h n i
  | parent {p} : (t.node n).isHistory = true → h.find? n = none → (t.node n).defaults = [] →
      (t.node n).parent = some p → (t.node p).initial = none → StandsFor t h n p

def Concrete (t : Tree) (h : History) (seeds : List NodeIndex) : Set NodeIndex :=
  { k | ∃ n ∈ seeds, t.StandsFor h n k }

-- The sets of nodes that can be active once all of `K` are targeted.
structure Closed (t : Tree) (K X : Set NodeIndex) : Prop where
  targets : K ⊆ X
  parent : ∀ n ∈ X, ∀ p, (t.node n).parent = some p → p ∈ X
  regions : ∀ n ∈ X, (t.node n).kind = .parallel → ∀ c ∈ t.regions n, c ∈ X
  initial : ∀ n ∈ X, (t.node n).kind = .compound → (∀ k ∈ K, n ∉ t.ancestors k) →
    ∀ i, (t.node n).initial = some i → i ∈ X

-- How a node gets active: it is targeted or above a target, or it is entered by its parent.
inductive Entered (t : Tree) (K : Set NodeIndex) : NodeIndex → Prop
  | above {k n} : k ∈ K → n ∈ t.path k → Entered t K n
  | region {p n} : Entered t K p → (t.node p).kind = .parallel → n ∈ t.regions p → Entered t K n
  | initial {p n} : Entered t K p → (t.node p).kind = .compound → (∀ k ∈ K, p ∉ t.ancestors k) →
      (t.node p).initial = some n → Entered t K n

variable {t : Tree} {K X : Set NodeIndex} {h : History} {seeds : List NodeIndex}
  {n m k p : NodeIndex}

theorem mem_concreteTargets : k ∈ t.concreteTargets h n ↔ t.StandsFor h n k := by
  simp only [concreteTargets]
  constructor
  case mp =>
    intro hk
    split at hk
    case isFalse hn =>
      obtain rfl : k = n := by simpa using hk
      exact .itself (Bool.of_not_eq_true hn)
    case isTrue hn =>
      split at hk
      case h_1 s hs => exact .recorded hn hs hk
      case h_2 hs =>
        split at hk
        case isFalse => exact .default hn hs hk
        case isTrue hd =>
          have hd := List.isEmpty_iff.mp hd
          split at hk
          case h_2 => simp at hk
          case h_1 p hp =>
            have e : k = (t.node p).initial.getD p := by simpa using hk
            cases hi : (t.node p).initial with
            | none => simpa [e, hi] using StandsFor.parent hn hs hd hp hi
            | some i => simpa [e, hi] using StandsFor.initial hn hs hd hp hi
  case mpr =>
    intro hk
    cases hk with
    | itself hn => simp [hn]
    | recorded hn hs hk => simpa [hn, hs] using SortedSet.mem_iff.mp hk
    | default hn hs hk =>
      have : (t.node n).defaults ≠ [] := List.ne_nil_of_mem hk
      simpa [hn, hs, this] using hk
    | initial hn hs hd hp hi => simp [hn, hs, hd, hp, hi]
    | parent hn hs hd hp hi => simp [hn, hs, hd, hp, hi]

theorem mem_concrete : k ∈ t.Concrete h seeds ↔ k ∈ seeds.flatMap (t.concreteTargets h) := by
  simp [Concrete, mem_concreteTargets]

-- Without history nodes, every target stands for itself.
theorem concrete_eq (hs : ∀ n ∈ seeds, (t.node n).isHistory = false) :
    t.Concrete h seeds = { n | n ∈ seeds } := by
  ext k
  constructor
  case mp =>
    rintro ⟨n, hn, hk⟩
    cases hk with
    | itself => exact hn
    | recorded hh | default hh | initial hh | parent hh => simp [hs n hn] at hh
  case mpr => exact fun hk => ⟨k, hk, .itself (hs k hk)⟩

theorem mem_enterBelow {active : NodeSet} : m ∈ t.enterBelow active n ↔ m ∈ active ∨
    n ∈ active ∧ ((t.node n).kind = .parallel ∧ m ∈ t.regions n ∨
      (t.node n).kind = .compound ∧ (∀ c ∈ t.children n, c ∉ active) ∧
        (t.node n).initial = some m) := by
  simp only [enterBelow]
  split
  case isFalse hn => simp_all
  case isTrue hn =>
    have hn : n ∈ active := by simpa using hn
    split
    case h_1 hk =>
      split
      case isTrue hc =>
        obtain ⟨c, hc, ha⟩ := List.any_eq_true.mp hc
        simp only [hk, hn, reduceCtorEq, false_and, true_and, false_or, iff_self_or]
        exact fun hall => absurd (SortedSet.contains_iff.mp ha) (hall.left c hc)
      case isFalse hc =>
        have hc : ∀ c ∈ t.children n, c ∉ active := by simpa using hc
        simp only [SortedSet.mem_insertAll, Option.mem_toList, hk, hn, reduceCtorEq,
          false_and, true_and, false_or]
        rw [and_iff_right hc]
    case h_2 hk => simp [hk, hn]
    all_goals simp_all

theorem Closed.path_subset (hc : t.Closed K X) (wf : t.WellFormed) (hn : n ∈ X)
    (hm : m ∈ t.path n) : m ∈ X := by
  induction n using Nat.strong_induction_on with
  | h n ih =>
    cases (mem_path.mp hm)
    case inl h =>
      subst h
      exact hn
    case inr ha =>
      have ⟨p, hp⟩ := wf.exists_parent_of_ancestor ha
      have hpx := hc.parent n hn p (wf.parent_of_child hp)
      exact ih p (wf.lt_of_child hp) hpx ((wf.child hp).right ▸ ha)

namespace WellFormed

variable (wf : t.WellFormed)
include wf

theorem initial_mem_regions (hi : (t.node p).initial = some m) : m ∈ t.regions p := by
  have ⟨i, hr, he⟩ := wf.initial (wf.initial_compound hi)
  simp_all

-- A node that is entered without being above a target is a child of the one that enters it.
theorem entered_origin (he : t.Entered K n) :
    (∃ k ∈ K, n ∈ t.path k) ∨ ∃ p, t.Entered K p ∧ n ∈ t.regions p := by
  cases he with
  | above hk hn => exact .inl ⟨_, hk, hn⟩
  | region hp _ hn => exact .inr ⟨_, hp, hn⟩
  | initial hp _ _ hi => exact .inr ⟨_, hp, wf.initial_mem_regions hi⟩

-- A child of a compound node is entered for a target, or as the initial child if there is none.
theorem entered_child (hk : (t.node n).kind = .compound) (hm : m ∈ t.children n)
    (he : t.Entered K m) : (∃ k ∈ K, m ∈ t.path k) ∨
      (∀ k ∈ K, n ∉ t.ancestors k) ∧ (t.node n).initial = some m := by
  cases he with
  | above hkK hkm => exact .inl ⟨_, hkK, hkm⟩
  | region _ hp hr =>
    cases wf.parent_unique hm (mem_regions.mp hr).left
    simp [hk] at hp
  | initial _ _ hb hi =>
    cases wf.parent_unique hm (mem_regions.mp (wf.initial_mem_regions hi)).left
    exact .inr ⟨hb, hi⟩

-- Only what is recorded can make a target stand for a history node.
theorem not_history_of_standsFor (hr : ∀ r, (t.node n).isHistory = true → h.find? n = some r →
      ∀ k ∈ r, (t.node k).isHistory = false) (hs : t.StandsFor h n k) :
    (t.node k).isHistory = false := by
  cases hs with
  | itself hn => exact hn
  | recorded hn hf hk => exact hr _ hn hf k hk
  | default hn _ hk =>
    obtain ⟨p, hp⟩ := wf.exists_parent_of_history hn
    exact (wf.defaults hn (wf.parent_of_child hp) k hk).right
  | initial _ _ _ _ hi => exact (mem_regions.mp (wf.initial_mem_regions hi)).right
  | parent _ _ _ hp _ => exact wf.not_history_of_children (wf.parent_eq_some.mp hp)

-- No history node is entered but as a target.
theorem entered_not_history (hh : ∀ k ∈ K, (t.node k).isHistory = false) (he : t.Entered K n) :
    (t.node n).isHistory = false := by
  rcases wf.entered_origin he with ⟨k, hk, hkn⟩ | ⟨p, _, hp⟩
  · exact wf.not_history_of_path (hh k hk) hkn
  · exact (mem_regions.mp hp).right

-- Before `n` enters its children, whether one is active tells whether there is a target below.
theorem no_child_iff {active : NodeSet} (ht : ∀ k ∈ K, ∀ m ∈ t.path k, m ∈ active)
    (ho : ∀ m ∈ active, (∃ k ∈ K, m ∈ t.path k) ∨ ∃ p, p ≠ n ∧ m ∈ t.children p) :
    (∀ c ∈ t.children n, c ∉ active) ↔ ∀ k ∈ K, n ∉ t.ancestors k := by
  constructor
  case mp =>
    intro hc k hk hn
    have ⟨c, hcn, hck⟩ := wf.exists_child_above hn
    exact hc c hcn (ht k hk c hck)
  case mpr =>
    intro hk c hc ha
    cases (ho c ha)
    case inl h =>
      have ⟨k, hkk, hck⟩ := h
      exact hk k hkk (wf.ancestors_of_ancestor_path (wf.mem_ancestors_of_child hc) hck)
    case inr h =>
      have ⟨p, hpn, hcp⟩ := h
      exact hpn (wf.parent_unique hcp hc)

theorem entered_closed : t.Closed K { n | t.Entered K n } where
  targets k hk := .above hk self_mem_path
  parent n hn p hp := by
    have hc := wf.parent_eq_some.mp hp
    cases (wf.entered_origin hn)
    case inl h =>
      have ⟨k, hk, hnk⟩ := h
      exact .above hk (wf.path_trans (mem_path_of_ancestor (wf.mem_ancestors_of_child hc)) hnk)
    case inr h =>
      have ⟨q, hq, hnq⟩ := h
      exact wf.parent_unique (mem_regions.mp hnq).left hc ▸ hq
  regions _ hn hk _ hc := .region hn hk hc
  initial _ hn hk hb _ hi := .initial hn hk hb hi

theorem entered_least (hc : t.Closed K X) (he : t.Entered K n) : n ∈ X := by
  induction he with
  | above hk hn => exact hc.path_subset wf (hc.targets hk) hn
  | region _ hk hn ih => exact hc.regions _ ih hk _ hn
  | initial _ hk hb hi ih => exact hc.initial _ ih hk hb _ hi

end WellFormed

-- What holds when the nodes before `i` have entered their children.
structure Passed (t : Tree) (K : Set NodeIndex) (i : Nat) (active : NodeSet) : Prop where
  entered : ∀ m ∈ active, t.Entered K m
  origin : ∀ m ∈ active, (∃ k ∈ K, m ∈ t.path k) ∨ ∃ p < i, m ∈ t.children p
  complete : ∀ m, t.Entered K m → ((∃ k ∈ K, m ∈ t.path k) ∨ ∃ p < i, m ∈ t.children p) →
    m ∈ active

namespace Passed

variable {i : Nat} {active : NodeSet}

theorem mem_iff (hp : t.Passed K i active) (wf : t.WellFormed) :
    i ∈ active ↔ t.Entered K i := by
  refine ⟨hp.entered i, fun he => hp.complete i he ?_⟩
  cases (wf.entered_origin he)
  case inl h => exact .inl h
  case inr h =>
    have ⟨p, _, hi⟩ := h
    have hc := (mem_regions.mp hi).left
    exact .inr ⟨p, wf.lt_of_child hc, hc⟩

theorem no_child_iff (hp : t.Passed K i active) (wf : t.WellFormed) :
    (∀ c ∈ t.children i, c ∉ active) ↔ ∀ k ∈ K, i ∉ t.ancestors k := by
  apply wf.no_child_iff
  · exact fun k hk m hm => hp.complete m (.above hk hm) (.inl ⟨k, hk, hm⟩)
  · exact fun m hm => (hp.origin m hm).imp_right fun ⟨p, hpi, hmp⟩ => ⟨p, hpi.ne, hmp⟩

theorem enterBelow (hp : t.Passed K i active) (wf : t.WellFormed) :
    t.Passed K (i + 1) (t.enterBelow active i) where
  entered m hm := by
    rcases mem_enterBelow.mp hm with hm | ⟨hi, ⟨hk, hm⟩ | ⟨hk, hc, hm⟩⟩
    · exact hp.entered m hm
    · exact .region (hp.entered i hi) hk hm
    · exact .initial (hp.entered i hi) hk ((hp.no_child_iff wf).mp hc) hm
  origin m hm := by
    rcases mem_enterBelow.mp hm with hm | ⟨_, ⟨_, hm⟩ | ⟨_, _, hm⟩⟩
    · refine (hp.origin m hm).imp_right fun ⟨p, hpi, hm⟩ => ⟨p, hpi.trans (Nat.lt_succ_self i), hm⟩
    · exact .inr ⟨i, Nat.lt_succ_self i, (mem_regions.mp hm).left⟩
    · exact .inr ⟨i, Nat.lt_succ_self i, (mem_regions.mp (wf.initial_mem_regions hm)).left⟩
  complete m he ho := by
    rw [mem_enterBelow]
    cases he with
    | above hk hm => exact .inl (hp.complete m (.above hk hm) (.inl ⟨_, hk, hm⟩))
    | @region p _ hpe hpk hm =>
      have hc := (mem_regions.mp hm).left
      cases ho
      case inl ho => exact .inl (hp.complete m (.region hpe hpk hm) (.inl ho))
      case inr ho =>
        have ⟨q, hq, hmq⟩ := ho
        cases wf.parent_unique hc hmq
        cases (Nat.lt_succ_iff.mp hq).eq_or_lt
        case inl h =>
          subst h
          exact .inr ⟨(hp.mem_iff wf).mpr hpe, .inl ⟨hpk, hm⟩⟩
        case inr hq => exact .inl (hp.complete m (.region hpe hpk hm) (.inr ⟨p, hq, hc⟩))
    | @initial p _ hpe hpk hb hm =>
      have hc := (mem_regions.mp (wf.initial_mem_regions hm)).left
      cases ho
      case inl ho => exact .inl (hp.complete m (.initial hpe hpk hb hm) (.inl ho))
      case inr ho =>
        have ⟨q, hq, hmq⟩ := ho
        cases wf.parent_unique hc hmq
        cases (Nat.lt_succ_iff.mp hq).eq_or_lt
        case inl h =>
          subst h
          exact .inr ⟨(hp.mem_iff wf).mpr hpe, .inr ⟨hpk, (hp.no_child_iff wf).mpr hb, hm⟩⟩
        case inr hq => exact .inl (hp.complete m (.initial hpe hpk hb hm) (.inr ⟨p, hq, hc⟩))

theorem foldl (hp : t.Passed K 0 active) (wf : t.WellFormed) (i : Nat) :
    t.Passed K i ((List.range i).foldl t.enterBelow active) := by
  induction i with
  | zero => exact hp
  | succ i ih =>
    rw [List.range_succ, List.foldl_append]
    exact ih.enterBelow wf

end Passed

namespace WellFormed

variable (wf : t.WellFormed)
include wf

theorem mem_resolve : n ∈ t.resolve h seeds ↔ t.Entered (t.Concrete h seeds) n := by
  have hs : t.Passed (t.Concrete h seeds) 0
      (.ofList ((seeds.flatMap (t.concreteTargets h)).flatMap t.path)) := by
    refine ⟨fun m hm => ?_, fun m hm => ?_, fun m _ ho => ?_⟩
    · have ⟨k, hk, hm⟩ := List.mem_flatMap.mp (SortedSet.mem_ofList.mp hm)
      exact .above (mem_concrete.mpr hk) hm
    · have ⟨k, hk, hm⟩ := List.mem_flatMap.mp (SortedSet.mem_ofList.mp hm)
      exact .inl ⟨k, mem_concrete.mpr hk, hm⟩
    · cases ho
      case inl h =>
        have ⟨k, hk, hm⟩ := h
        exact SortedSet.mem_ofList.mpr (List.mem_flatMap.mpr ⟨k, mem_concrete.mp hk, hm⟩)
      case inr h =>
        have ⟨p, hp, _⟩ := h
        exact absurd hp (Nat.not_lt_zero p)
  have hp := hs.foldl wf t.size
  refine ⟨hp.entered n, fun he => hp.complete n he ?_⟩
  refine (wf.entered_origin he).imp_right fun ⟨p, _, hn⟩ => ?_
  have hc := (mem_regions.mp hn).left
  exact ⟨p, lt_size_of_children hc, hc⟩

end WellFormed

end Tree

end Statechart
