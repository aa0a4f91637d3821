import Statechart.Proofs.Arising

-- Which nodes are complete, how they announce it, and when a machine is done.

namespace Statechart

namespace Tree

-- `p` is a child of the parallel node `q`.
def InParallel (t : Tree) (p q : NodeIndex) : Prop :=
  p ∈ t.children q ∧ (t.node q).kind = .parallel

-- The final node `f` reaches its compound parent and, from there, whatever lies above it through
-- parallel nodes only.
def Reaches (t : Tree) (f q : NodeIndex) : Prop :=
  ∃ p, (t.node f).kind = .final ∧ f ∈ t.children p ∧ (t.node p).kind = .compound ∧
    Relation.ReflTransGen t.InParallel p q

end Tree

namespace Configuration

-- A final node is complete when it is active, a compound node when a final child of it is, and a
-- parallel node when all its regions are complete.
inductive Complete (t : Tree) (c : Configuration) : NodeIndex → Prop
  | final {n} : (t.node n).kind = .final → n ∈ c → Complete t c n
  | compound {n k} : (t.node n).kind = .compound → k ∈ t.children n → (t.node k).kind = .final →
      k ∈ c → Complete t c n
  | parallel {n} : (t.node n).kind = .parallel → (∀ m ∈ t.regions n, Complete t c m) →
      Complete t c n

variable {t : Tree} {c c' done : Configuration} {f k n p q : NodeIndex}

namespace Complete

theorem of_parallel (h : c.Complete t n) (hk : (t.node n).kind = .parallel) :
    ∀ m ∈ t.regions n, c.Complete t m := by
  cases h with
  | parallel _ h => exact h
  | final h => simp [hk] at h
  | compound h => simp [hk] at h

theorem lt_size (h : c.Complete t n) : n < t.size := by
  apply Tree.lt_size_of_kind
  cases h <;> simp_all

-- Something active completes it.
theorem exists_active (wf : t.WellFormed) (h : c.Complete t n) : ∃ k, k ∈ c := by
  induction h with
  | final _ hn => exact ⟨_, hn⟩
  | compound _ _ _ hk => exact ⟨_, hk⟩
  | parallel hk _ ih =>
    have ⟨m, hm⟩ := wf.parallel hk
    exact ih m hm

-- What lies below a complete parallel node through parallel nodes only is complete.
theorem of_above (wf : t.WellFormed) (hn : (t.node n).isHistory = false)
    (hq : Relation.ReflTransGen t.InParallel n q) (h : c.Complete t q) : c.Complete t n := by
  induction hq using Relation.ReflTransGen.head_induction_on with
  | refl => exact h
  | head hp _ ih =>
    have hp' := ih (wf.not_history_of_children hp.left)
    exact hp'.of_parallel hp.right _ (Tree.mem_regions.mpr ⟨hp.left, hn⟩)

end Complete

theorem completesAt_iff (h : ∀ m ∈ t.regions n, m ∈ done ↔ c.Complete t m) :
    completesAt t c done n = true ↔ c.Complete t n := by
  constructor
  case mp =>
    intro hc
    simp only [completesAt] at hc
    split at hc
    case h_1 hk =>
      obtain ⟨k, hkn, hkc⟩ := List.any_eq_true.mp hc
      simp only [Node.isFinal, Bool.and_eq_true, SortedSet.contains_iff, decide_eq_true_eq] at hkc
      exact .compound hk hkn hkc.right hkc.left
    case h_2 hk =>
      refine .parallel hk fun m hm => (h m hm).mp ?_
      exact SortedSet.contains_iff.mp (List.all_eq_true.mp hc m hm)
    case h_3 hk => exact .final hk (SortedSet.contains_iff.mp hc)
    all_goals contradiction
  case mpr =>
    intro hc
    cases hc with
    | final hk hn => simpa [completesAt, hk] using hn
    | compound hk hkn hf hkc =>
      simp only [completesAt, hk]
      exact List.any_eq_true.mpr ⟨_, hkn, by simp [hkc, Node.isFinal, hf]⟩
    | parallel hk hm =>
      simp only [completesAt, hk]
      exact List.all_eq_true.mpr fun m hmn =>
        SortedSet.contains_iff.mpr ((h m hmn).mpr (hm m hmn))

-- From the last node back to `k`, what has been found to be complete is what is complete.
theorem mem_completed_from (wf : t.WellFormed) {j k n : Nat} (h : k + j = t.size) :
    n ∈ (List.range' k j).foldr
      (fun n done => if completesAt t c done n then done.insert n else done) ∅ ↔
        k ≤ n ∧ c.Complete t n := by
  induction j generalizing k n with
  | zero =>
    apply iff_of_false
    · simp
    · rintro ⟨hk, hn⟩
      have : n < t.size := hn.lt_size
      omega
  | succ j ih =>
    have ih {n} := ih (k := k + 1) (n := n) (by omega)
    rw [List.range'_succ, List.foldr_cons]
    have hk := completesAt_iff (t := t) (c := c) (n := k) fun m hm =>
      have hlt := wf.lt_of_child (Tree.mem_regions.mp hm).left
      ih.trans (and_iff_right hlt)
    split
    case isTrue h =>
      rw [SortedSet.mem_insert, ih]
      constructor
      case mp =>
        rintro (rfl | ⟨hl, hn⟩)
        · exact ⟨le_rfl, hk.mp h⟩
        · exact ⟨by omega, hn⟩
      case mpr =>
        rintro ⟨hl, hn⟩
        exact hl.eq_or_lt.imp Eq.symm fun hl => ⟨hl, hn⟩
    case isFalse h =>
      rw [ih]
      refine and_congr_left fun hn => ⟨fun hl => by omega, fun hl => hl.lt_of_ne ?_⟩
      rintro rfl
      exact h (hk.mpr hn)

theorem mem_completed (wf : t.WellFormed) : n ∈ c.completed t ↔ c.Complete t n := by
  rw [completed, Tree.indices, List.range_eq_range', mem_completed_from wf (Nat.zero_add _)]
  simp

theorem isComplete_iff (wf : t.WellFormed) : c.isComplete t n = true ↔ c.Complete t n := by
  rw [isComplete, SortedSet.contains_iff, mem_completed wf]

-- What becomes complete is reached by a final node that becomes active.
theorem Complete.exists_final {machineId : String} {root : Definition.State}
    (hb : root.build machineId = .ok t) (hk : (t.node n).kind ≠ .final) (h' : c'.Complete t n)
    (h : ¬ c.Complete t n) : ∃ f ∈ c', f ∉ c ∧ t.Reaches f n := by
  induction h' with
  | final hf => exact absurd hf hk
  | @compound n k hn hkn hf hkc =>
    exact ⟨k, hkc, fun hk => h (.compound hn hkn hf hk), n, hf, hkn, hn, .refl⟩
  | @parallel n hn _ ih =>
    obtain ⟨m, hm, hmc⟩ : ∃ m ∈ t.regions n, ¬ c.Complete t m := by
      by_contra hall
      exact h (.parallel hn fun m hm => not_not.mp fun hmc => hall ⟨m, hm, hmc⟩)
    have hmn := (Tree.mem_regions.mp hm).left
    have hmk : (t.node m).kind ≠ .final := by
      intro hf
      simp [Definition.State.build_compound hb hmn hf] at hn
    obtain ⟨f, hf, hfc, p, hfk, hfp, hp, hpm⟩ := ih m hm hmk hmc
    exact ⟨f, hf, hfc, p, hfk, hfp, hp, hpm.tail ⟨hmn, hn⟩⟩

end Configuration

namespace Tree

theorem nodup_eraseDups (l : List NodeIndex) : l.eraseDups.Nodup := by
  match l with
  | [] => simp
  | a :: rest =>
    rw [List.eraseDups_cons, List.nodup_cons]
    exact ⟨by simp, nodup_eraseDups _⟩
termination_by l.length
decreasing_by exact Nat.lt_succ_of_le (List.length_filter_le ..)

theorem completedParallels_nodup (t : Tree) (c : Configuration) (entered : List NodeIndex) :
    (t.completedParallels c entered).Nodup :=
  nodup_eraseDups _

variable {t : Tree} {c : Configuration} {f n p q : NodeIndex} {e : Event} (wf : t.WellFormed)
include wf

-- What lies above a child through parallel nodes only.
theorem transGen_inParallel_iff (hp : n ∈ t.children p) : Relation.TransGen t.InParallel n q ↔
    (t.node p).kind = .parallel ∧ (q = p ∨ Relation.TransGen t.InParallel p q) := by
  rw [Relation.TransGen.head'_iff, ← Relation.reflTransGen_iff_eq_or_transGen]
  constructor
  case mp =>
    rintro ⟨b, hb, hq⟩
    obtain rfl := wf.parent_unique hb.left hp
    exact ⟨hb.right, hq⟩
  case mpr =>
    rintro ⟨hk, hq⟩
    exact ⟨p, ⟨hp, hk⟩, hq⟩

-- The parallel nodes right above `p` up to the first that is not complete.
theorem mem_takeWhile_ancestors :
    q ∈ (t.ancestors p).takeWhile (fun a => t.isParallel a && (c.completed t).contains a) ↔
      Relation.TransGen t.InParallel p q ∧ c.Complete t q := by
  induction p using Nat.strong_induction_on with
  | h p ih =>
    have hP {a} : (t.isParallel a && (c.completed t).contains a) = true ↔
        (t.node a).kind = .parallel ∧ c.Complete t a := by
      simp [isParallel, Configuration.mem_completed wf]
    cases ha : t.ancestors p with
    | nil =>
      apply iff_of_false (by simp)
      rintro ⟨hq, _⟩
      obtain ⟨b, hb, _⟩ := Relation.TransGen.head'_iff.mp hq
      simpa [ha] using wf.mem_ancestors_of_child hb.left
    | cons a rest =>
      obtain ⟨p', hp'⟩ := wf.exists_parent_of_ancestor (n := p) (a := a) (by simp [ha])
      obtain ⟨rfl, rfl⟩ := List.cons.inj (ha.symm.trans (wf.child hp').right)
      have hlow (hq : q = a ∨ Relation.TransGen t.InParallel a q) (h : c.Complete t q) :
          c.Complete t a :=
        h.of_above wf (wf.not_history_of_children hp')
          (Relation.reflTransGen_iff_eq_or_transGen.mpr hq)
      rw [List.takeWhile_cons, transGen_inParallel_iff wf hp']
      split
      case isTrue h =>
        obtain ⟨hk, hac⟩ := hP.mp h
        rw [List.mem_cons, ih a (wf.lt_of_child hp')]
        constructor
        case mp =>
          rintro (rfl | ⟨hq, hqc⟩)
          · exact ⟨⟨hk, .inl rfl⟩, hac⟩
          · exact ⟨⟨hk, .inr hq⟩, hqc⟩
        case mpr =>
          rintro ⟨⟨_, hq⟩, hqc⟩
          exact hq.imp_right fun hq => ⟨hq, hqc⟩
      case isFalse h =>
        apply iff_of_false (by simp)
        rintro ⟨⟨hk, hq⟩, hqc⟩
        exact h (hP.mpr ⟨hk, hlow hq hqc⟩)

theorem completedParent?_eq_some : t.completedParent? n = some p ↔
    (t.node n).kind = .final ∧ n ∈ t.children p ∧ p ≠ root ∧ (t.node p).kind = .compound := by
  simp only [completedParent?, Node.isFinal, decide_eq_true_eq]
  split
  case isTrue h => simp [Option.filter_eq_some_iff, wf.parent_eq_some, isCompound, h]
  case isFalse h => simp [h]

theorem doneEvent?_eq_some : t.doneEvent? n = some e ↔
    ∃ p, (t.node n).kind = .final ∧ n ∈ t.children p ∧ p ≠ root ∧ (t.node p).kind = .compound ∧
      e = .doneState (t.node p).id ((t.node n).data.getD .null) := by
  simp only [doneEvent?, Option.map_eq_some_iff, completedParent?_eq_some wf, and_assoc,
    @eq_comm _ _ e]

theorem mem_completedAbove : q ∈ t.completedAbove (c.completed t) f ↔
    (t.node q).kind = .parallel ∧ t.Reaches f q ∧ c.Complete t q := by
  rw [completedAbove]
  constructor
  case mp =>
    intro hq
    split at hq
    case h_1 => contradiction
    case h_2 p hp =>
      obtain ⟨hf, hfp, _, hpk⟩ := (completedParent?_eq_some wf).mp hp
      obtain ⟨hpq, hqc⟩ := (mem_takeWhile_ancestors wf).mp hq
      obtain ⟨_, _, _, hk⟩ := Relation.TransGen.tail'_iff.mp hpq
      exact ⟨hk, ⟨p, hf, hfp, hpk, hpq.to_reflTransGen⟩, hqc⟩
  case mpr =>
    intro ⟨hk, ⟨p, hf, hfp, hpk, hpq⟩, hqc⟩
    have hpq : Relation.TransGen t.InParallel p q := by
      refine (Relation.reflTransGen_iff_eq_or_transGen.mp hpq).resolve_left ?_
      rintro rfl
      simp [hpk] at hk
    have hr : p ≠ root := by
      rintro rfl
      obtain ⟨b, hb, _⟩ := Relation.TransGen.head'_iff.mp hpq
      simpa [wf.root_ancestors] using wf.mem_ancestors_of_child hb.left
    rw [(completedParent?_eq_some wf).mpr ⟨hf, hfp, hr, hpk⟩]
    exact (mem_takeWhile_ancestors wf).mpr ⟨hpq, hqc⟩

theorem mem_completedParallels (entered : List NodeIndex) : q ∈ t.completedParallels c entered ↔
    (t.node q).kind = .parallel ∧ c.Complete t q ∧ ∃ f ∈ entered, t.Reaches f q := by
  simp only [completedParallels, List.mem_eraseDups, List.mem_flatMap, mem_completedAbove wf]
  constructor
  case mp => exact fun ⟨f, hf, hk, hr, hc⟩ => ⟨hk, hc, f, hf, hr⟩
  case mpr => exact fun ⟨hk, hc, f, hf, hr⟩ => ⟨f, hf, hk, hr, hc⟩

theorem endsMachine_iff : t.endsMachine n = true ↔
    (t.node n).kind = .final ∧ n ∈ t.children root := by
  simp [endsMachine, Node.isFinal, wf.parent_eq_some]

end Tree

end Statechart
