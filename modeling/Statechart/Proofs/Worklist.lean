import Mathlib.Data.Finset.Card
import Mathlib.Logic.Relation
import Statechart.Proofs.Build
import Statechart.Proofs.Resolve

-- Resolving step by step: nodes whose children are not settled yet are pending, and are worked off
-- in any order. Every order ends, and ends with the same nodes.

namespace Statechart

structure Worklist where
  active : NodeSet
  pending : List NodeIndex

namespace Worklist

def activate (w : Worklist) (n : NodeIndex) : Worklist :=
  if w.active.contains n then w
  else { active := w.active.insert n, pending := w.pending ++ [n] }

def start (t : Tree) (h : History) (seeds : List NodeIndex) : Worklist :=
  let active : NodeSet := .ofList ((seeds.flatMap (t.concreteTargets h)).flatMap t.path)
  { active := active, pending := active.toList }

-- What `n` activates below itself. The way from a target of `n` leads up to `n`.
def opens (t : Tree) (h : History) (active : NodeSet) (n : NodeIndex) : List NodeIndex :=
  match (t.node n).kind with
  | .compound =>
    if (t.children n).any active.contains then []
    else ((t.node n).initial.toList.flatMap (t.concreteTargets h)).flatMap fun k =>
      k :: (t.ancestors k).takeWhile (· ≠ n)
  | .parallel => t.regions n
  | .atomic | .final | .history _ => []

-- Any pending node may be taken next.
inductive Step (t : Tree) (h : History) : Worklist → Worklist → Prop
  | settle {active before n after} : Step t h ⟨active, before ++ n :: after⟩
      ((opens t h active n).foldl activate ⟨active, before ++ after⟩)

variable {t : Tree} {h : History} {K : Set NodeIndex} {seeds : List NodeIndex}
  {active : NodeSet} {l : List NodeIndex} {w w₁ w₂ : Worklist} {n m : NodeIndex}

theorem mem_active_activate : m ∈ (w.activate n).active ↔ m ∈ w.active ∨ m = n := by
  simp only [activate]
  split
  case isTrue hn =>
    have hn := SortedSet.contains_iff.mp hn
    exact ⟨.inl, fun hm => hm.elim id (· ▸ hn)⟩
  case isFalse => simp [or_comm]

theorem mem_pending_activate :
    m ∈ (w.activate n).pending ↔ m ∈ w.pending ∨ m = n ∧ m ∉ w.active := by
  simp only [activate]
  split
  case isTrue hn =>
    have hn := SortedSet.contains_iff.mp hn
    exact ⟨.inl, fun hm => hm.elim id fun h => absurd (h.left ▸ hn) h.right⟩
  case isFalse hn =>
    have hn : n ∉ w.active := by simpa using hn
    simp only [List.mem_append, List.mem_singleton]
    exact or_congr_right ⟨fun e => ⟨e, e ▸ hn⟩, And.left⟩

theorem mem_active_activateAll : m ∈ (l.foldl activate w).active ↔ m ∈ w.active ∨ m ∈ l := by
  induction l generalizing w with
  | nil => simp
  | cons a rest ih => simp [ih, mem_active_activate, or_assoc]

theorem mem_pending_activateAll :
    m ∈ (l.foldl activate w).pending ↔ m ∈ w.pending ∨ m ∈ l ∧ m ∉ w.active := by
  induction l generalizing w with
  | nil => simp
  | cons a rest ih =>
    simp only [List.foldl_cons, ih, mem_pending_activate, mem_active_activate, List.mem_cons]
    by_cases m = a <;> by_cases m ∈ w.active <;> simp_all

theorem nodup_activateAll (hw : ∀ m ∈ w.pending, m ∈ w.active) (hn : w.pending.Nodup) :
    (l.foldl activate w).pending.Nodup := by
  induction l generalizing w with
  | nil => exact hn
  | cons a rest ih =>
    refine ih (fun m hm => ?_) ?_
    · rw [mem_active_activate]
      cases (mem_pending_activate.mp hm)
      case inl hm => exact .inl (hw m hm)
      case inr h =>
        have ⟨hm, _⟩ := h
        exact .inr hm
    · simp only [activate]
      split
      case isTrue => exact hn
      case isFalse ha =>
        have ha : a ∉ w.active := by simpa using ha
        simp only [List.nodup_append, List.nodup_singleton, List.mem_singleton, forall_eq]
        exact ⟨hn, trivial, fun b hb e => ha (e ▸ hw b hb)⟩

theorem mem_opens (wf : t.WellFormed) : m ∈ opens t h active n ↔
    (t.node n).kind = .parallel ∧ m ∈ t.regions n ∨
      (t.node n).kind = .compound ∧ (∀ c ∈ t.children n, c ∉ active) ∧
        (t.node n).initial = some m := by
  simp only [opens]
  split
  case h_1 hk =>
    obtain ⟨i, hr, hi⟩ := wf.initial hk
    obtain ⟨hc, hh⟩ := Tree.mem_regions.mp hr
    have ha : (t.ancestors i).takeWhile (· ≠ n) = [] := by
      simp [(wf.child hc).right, Tree.path]
    split
    case isTrue hany =>
      obtain ⟨c, hc, hca⟩ := List.any_eq_true.mp hany
      have : ¬ ∀ c ∈ t.children n, c ∉ active := fun h => h c hc (SortedSet.contains_iff.mp hca)
      simp [hk, this]
    case isFalse hany =>
      have hany : ∀ c ∈ t.children n, c ∉ active := by simpa using hany
      have ht : t.concreteTargets h i = [i] := by simp [Tree.concreteTargets, hh]
      simp only [hi, Option.toList_some, List.flatMap_cons, List.flatMap_nil, List.append_nil, ht,
        ha, List.mem_singleton, hk, reduceCtorEq, false_and, true_and, false_or, Option.some.injEq]
      rw [and_iff_right hany]
      exact eq_comm
  case h_2 hk => simp [hk]
  all_goals simp_all

theorem children_of_opens (wf : t.WellFormed) (hm : m ∈ opens t h active n) :
    m ∈ t.children n := by
  cases (mem_opens wf).mp hm
  case inl h => exact (Tree.mem_regions.mp h.right).left
  case inr h => exact (Tree.mem_regions.mp (wf.initial_mem_regions h.right.right)).left

-- A node that is settled once `n` is worked off was settled before, or is `n`.
theorem active_of_settled {before after : List NodeIndex}
    (ha : m ∈ (l.foldl activate ⟨active, before ++ after⟩).active)
    (hp : m ∉ (l.foldl activate ⟨active, before ++ after⟩).pending) :
    m ∈ active ∧ (m = n ∨ m ∉ before ++ n :: after) := by
  rw [mem_active_activateAll] at ha
  rw [mem_pending_activateAll] at hp
  have hm : m ∈ active := by
    by_contra hm
    exact hp (.inr ⟨ha.resolve_left hm, hm⟩)
  refine ⟨hm, or_iff_not_imp_left.mpr fun e hmp => hp (.inl ?_)⟩
  simpa [e] using hmp

-- What is active was entered, and what is missing is still to come from a pending node.
structure Sound (t : Tree) (K : Set NodeIndex) (w : Worklist) : Prop where
  entered : ∀ m ∈ w.active, t.Entered K m
  targeted : ∀ k ∈ K, ∀ m ∈ t.path k, m ∈ w.active
  pending_active : ∀ m ∈ w.pending, m ∈ w.active
  pending_nodup : w.pending.Nodup
  origin : ∀ m ∈ w.active, (∃ k ∈ K, m ∈ t.path k) ∨
    ∃ p ∈ w.active, p ∉ w.pending ∧ m ∈ t.children p
  region : ∀ n ∈ w.active, n ∉ w.pending → (t.node n).kind = .parallel →
    ∀ m ∈ t.regions n, m ∈ w.active
  initial : ∀ n ∈ w.active, n ∉ w.pending → (t.node n).kind = .compound →
    (∀ k ∈ K, n ∉ t.ancestors k) → ∀ m, (t.node n).initial = some m → m ∈ w.active

namespace Sound

theorem start (t : Tree) (h : History) (seeds : List NodeIndex) :
    Sound t (t.Concrete h seeds) (.start t h seeds) := by
  have hm {m} : m ∈ (Worklist.start t h seeds).active ↔
      ∃ k ∈ t.Concrete h seeds, m ∈ t.path k := by
    simp only [Worklist.start, SortedSet.mem_ofList, List.mem_flatMap (b := m), Tree.mem_concrete]
  have hp {m} : m ∈ (Worklist.start t h seeds).pending ↔ m ∈ (Worklist.start t h seeds).active :=
    .rfl
  refine ⟨fun m ha => ?_, fun k hk m hkm => hm.mpr ⟨k, hk, hkm⟩, fun m => hp.mp, ?_,
    fun m ha => .inl (hm.mp ha), ?_, ?_⟩
  · obtain ⟨k, hk, hkm⟩ := hm.mp ha
    exact .above hk hkm
  · exact (Worklist.start t h seeds).active.increasing.imp fun hlt => hlt.ne
  · exact fun n ha hn => absurd (hp.mpr ha) hn
  · exact fun n ha hn => absurd (hp.mpr ha) hn

-- As long as `n` is pending, only targets below it have made a child of it active.
theorem no_child_iff (hs : Sound t K w) (wf : t.WellFormed) (hn : n ∈ w.pending) :
    (∀ c ∈ t.children n, c ∉ w.active) ↔ ∀ k ∈ K, n ∉ t.ancestors k := by
  apply wf.no_child_iff hs.targeted
  intro m hm
  refine (hs.origin m hm).imp_right fun ⟨p, _, hp, hmp⟩ => ⟨p, ?_, hmp⟩
  rintro rfl
  exact hp hn

theorem step (hs : Sound t K w₁) (wf : t.WellFormed) (st : Step t h w₁ w₂) : Sound t K w₂ := by
  cases st with
  | @settle active before n after =>
    have hpn : n ∈ before ++ n :: after := by simp
    have hna : n ∈ active := hs.pending_active n hpn
    have hnc := hs.no_child_iff wf hpn
    have hmo {m} : m ∈ opens t h active n ↔ _ := mem_opens wf
    have hsub {m} : m ∈ before ++ after → m ∈ before ++ n :: after := by
      simp only [List.mem_append, List.mem_cons]
      exact Or.imp_right .inr
    have hnd := List.nodup_middle.mp hs.pending_nodup
    have ⟨hnr, hrest⟩ := List.nodup_cons.mp hnd
    constructor
    case entered =>
      intro m hm
      cases (mem_active_activateAll.mp hm)
      case inl hm => exact hs.entered m hm
      case inr hm =>
        cases (hmo.mp hm)
        case inl h =>
          have ⟨hk, hm⟩ := h
          exact .region (hs.entered n hna) hk hm
        case inr h =>
          have ⟨hk, hc, hm⟩ := h
          exact .initial (hs.entered n hna) hk (hnc.mp hc) hm
    case targeted =>
      exact fun k hk m hm => mem_active_activateAll.mpr (.inl (hs.targeted k hk m hm))
    case pending_active =>
      intro m hm
      rw [mem_active_activateAll]
      cases (mem_pending_activateAll.mp hm)
      case inl hm => exact .inl (hs.pending_active m (hsub hm))
      case inr h =>
        have ⟨hm, _⟩ := h
        exact .inr hm
    case pending_nodup =>
      exact nodup_activateAll (fun m hm => hs.pending_active m (hsub hm)) hrest
    case origin =>
      intro m hm
      simp only [mem_active_activateAll, mem_pending_activateAll]
      cases (mem_active_activateAll.mp hm)
      case inl hm =>
        refine (hs.origin m hm).imp_right fun ⟨p, hpa, hpp, hmp⟩ => ⟨p, .inl hpa, ?_, hmp⟩
        rintro (hp | ⟨_, hp⟩)
        · exact hpp (hsub hp)
        · exact hp hpa
      case inr hm =>
        have hnp : ¬ (n ∈ before ++ after ∨ n ∈ opens t h active n ∧ n ∉ active) :=
          fun hn => hn.elim hnr fun hn => hn.right hna
        exact .inr ⟨n, .inl hna, hnp, children_of_opens wf hm⟩
    case region =>
      intro q hq hqp hk m hm
      rw [mem_active_activateAll]
      have hqs := active_of_settled (n := n) hq hqp
      cases hqs.right
      case inl h =>
        subst h
        exact .inr (hmo.mpr (.inl ⟨hk, hm⟩))
      case inr hqp => exact .inl (hs.region q hqs.left hqp hk m hm)
    case initial =>
      intro q hq hqp hk hb m hm
      rw [mem_active_activateAll]
      have hqs := active_of_settled (n := n) hq hqp
      cases hqs.right
      case inl h =>
        subst h
        exact .inr (hmo.mpr (.inr ⟨hk, hnc.mpr hb, hm⟩))
      case inr hqp => exact .inl (hs.initial q hqs.left hqp hk hb m hm)

theorem mem_iff (hs : Sound t K w) (hw : w.pending = []) : m ∈ w.active ↔ t.Entered K m := by
  refine ⟨hs.entered m, fun he => ?_⟩
  induction he with
  | above hk hm => exact hs.targeted _ hk _ hm
  | region _ hk hm ih => exact hs.region _ ih (by simp [hw]) hk _ hm
  | initial _ hk hb hm ih => exact hs.initial _ ih (by simp [hw]) hk hb _ hm

end Sound

theorem steps_sound (wf : t.WellFormed)
    (st : Relation.ReflTransGen (Step t h) (start t h seeds) w) :
    Sound t (t.Concrete h seeds) w := by
  induction st with
  | refl => exact .start t h seeds
  | tail _ st ih => exact ih.step wf st

-- The inactive nodes of the tree and the pending ones: settling a node takes one away.
def weight (t : Tree) (w : Worklist) : Nat :=
  (Finset.range t.size \ w.active.toList.toFinset).card + w.pending.length

theorem weight_activate (hn : n < t.size) : weight t (w.activate n) = weight t w := by
  simp only [activate]
  split
  case isTrue => rfl
  case isFalse ha =>
    have ha : n ∉ w.active := by simpa using ha
    have he : Finset.range t.size \ (w.active.insert n).toList.toFinset =
        (Finset.range t.size \ w.active.toList.toFinset).erase n := by
      ext m
      simp only [Finset.mem_sdiff, Finset.mem_range, List.mem_toFinset, ← SortedSet.mem_iff,
        SortedSet.mem_insert, Finset.mem_erase]
      tauto
    have hm : n ∈ Finset.range t.size \ w.active.toList.toFinset := by
      simpa [hn, ← SortedSet.mem_iff] using ha
    have hc := Finset.card_erase_add_one hm
    simp only [weight, he, List.length_append, List.length_singleton]
    omega

theorem weight_activateAll (hl : ∀ n ∈ l, n < t.size) :
    weight t (l.foldl activate w) = weight t w := by
  induction l generalizing w with
  | nil => rfl
  | cons a rest ih =>
    rw [List.foldl_cons, ih fun n hn => hl n (List.mem_cons_of_mem _ hn),
      weight_activate (hl a List.mem_cons_self)]

theorem weight_step (wf : t.WellFormed) (st : Step t h w₁ w₂) : weight t w₂ + 1 = weight t w₁ := by
  cases st with
  | @settle active before n after =>
    have hl m (hm : m ∈ opens t h active n) : m < t.size :=
      (wf.child (children_of_opens wf hm)).left
    rw [weight_activateAll hl]
    simp only [weight, List.length_append, List.length_cons]
    omega

theorem step_wellFounded (wf : t.WellFormed) :
    WellFounded fun w₂ w₁ => Step t h w₁ w₂ := by
  refine Subrelation.wf (fun st => ?_) (measure (weight t)).wf
  have := weight_step wf st
  exact Nat.lt_of_succ_le this.le

end Worklist

namespace Tree

variable {machineId : String} {root : Definition.State} {t : Tree}

-- Resolving finds the least set that is closed under the rules of entering, whatever the order of
-- the seeds and whatever the order in which the pending nodes are worked off.
theorem resolve_least (hb : root.build machineId = .ok t) (h : History)
    (seeds : List NodeIndex) :
    IsLeast { X | t.Closed (t.Concrete h seeds) X } { n | n ∈ t.resolve h seeds } ∧
      (∀ seeds', (∀ n, n ∈ seeds' ↔ n ∈ seeds) → t.resolve h seeds' = t.resolve h seeds) ∧
      WellFounded (fun w₂ w₁ => Worklist.Step t h w₁ w₂) ∧
      ∀ w, Relation.ReflTransGen (Worklist.Step t h) (.start t h seeds) w → w.pending = [] →
        w.active = t.resolve h seeds := by
  have wf := Definition.State.build_wellFormed hb
  refine ⟨⟨?closed, ?least⟩, ?order, Worklist.step_wellFounded wf, ?worklist⟩
  case closed =>
    have he : { n | n ∈ t.resolve h seeds } = { n | t.Entered (t.Concrete h seeds) n } :=
      Set.ext fun n => wf.mem_resolve
    exact he ▸ wf.entered_closed
  case least =>
    exact fun X hX n hn => wf.entered_least hX (wf.mem_resolve.mp hn)
  case order =>
    intro seeds' hs
    have hc : t.Concrete h seeds' = t.Concrete h seeds := by simp [Concrete, hs]
    ext n
    rw [wf.mem_resolve, wf.mem_resolve, hc]
  case worklist =>
    intro w st hw
    ext n
    rw [(Worklist.steps_sound wf st).mem_iff hw, wf.mem_resolve]

-- The loud sound and the dark picture are remembered.
theorem resolve_least_player :
    IsLeast { X | playerTree.Closed
        (playerTree.Concrete (SortedMap.insert ∅ 3 (.ofList [6, 9])) [3]) X }
      { n | n ∈ [0, 2, 4, 6, 7, 9] } := by
  have hl := (resolve_least player_build (SortedMap.insert ∅ 3 (.ofList [6, 9])) [3]).left
  have hr : (playerTree.resolve (SortedMap.insert ∅ 3 (.ofList [6, 9])) [3]).toList =
    [0, 2, 4, 6, 7, 9] := by decide +kernel
  simpa [SortedSet.mem_iff, hr] using hl

end Tree

end Statechart
