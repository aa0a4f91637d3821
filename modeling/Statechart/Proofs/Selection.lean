import Mathlib.Data.List.Nodup
import Statechart.Proofs.Build
import Statechart.Proofs.Domain

-- Which transitions are selected: an enabled one is only dropped for a selected one that leaves
-- some of the same nodes and has precedence over it.

namespace Statechart

namespace Evaluation

variable {α β : Type} {x : Evaluation α} {f : α → Evaluation β} {a : α} {b : β}

@[simp] theorem result_pure : (pure a : Evaluation α).result = .ok a := rfl

theorem bind_eq_ok :
    (x >>= f).result = .ok b ↔ ∃ a, x.result = .ok a ∧ (f a).result = .ok b := by
  change (Evaluation.bind x f).result = .ok b ↔ _
  simp only [Evaluation.bind]
  split <;> simp_all

theorem eq_ok_of_toOption (h : x.result.toOption = some a) : x.result = .ok a := by
  cases hx : x.result <;> simp_all [Except.toOption]

end Evaluation

namespace Selection

variable {C S : Type} {t : Tree} {r : Registry C S} {policy : GuardPolicy} {c : Configuration}
  {x : C} {e : Event} {eventless : Bool} {u v w : Transition} {us vs found : List Transition}
  {l l' n a : NodeIndex} {ls : List NodeIndex} {o : Option Transition}

theorem firstEnabled_cons : (firstEnabled r policy c x e (u :: us)).result = .ok o ↔
    ∃ b, (passes r policy c x e u).result = .ok b ∧
      if b then some u = o else (firstEnabled r policy c x e us).result = .ok o := by
  rw [firstEnabled, Evaluation.bind_eq_ok]
  apply exists_congr
  intro b
  apply and_congr_right
  intro _
  cases b <;> simp

theorem mem_of_firstEnabled (h : (firstEnabled r policy c x e us).result = .ok (some u)) :
    u ∈ us := by
  induction us with
  | nil => simp [firstEnabled] at h
  | cons v us ih =>
    have ⟨b, _, hb⟩ := firstEnabled_cons.mp h
    cases b
    · exact List.mem_cons_of_mem _ (ih hb)
    · simp [Option.some.inj hb]

-- What comes later only matters if nothing before it passes.
theorem firstEnabled_append :
    (firstEnabled r policy c x e (us ++ vs)).result = .ok o ↔
      (∃ u, o = some u ∧ (firstEnabled r policy c x e us).result = .ok (some u)) ∨
        (firstEnabled r policy c x e us).result = .ok none ∧
          (firstEnabled r policy c x e vs).result = .ok o := by
  induction us with
  | nil => simp [firstEnabled]
  | cons u us ih =>
    rw [List.cons_append, firstEnabled_cons, ih]
    simp only [firstEnabled_cons]
    constructor
    case mp =>
      intro ⟨b, hb, h⟩
      cases b
      case true => exact .inl ⟨u, h.symm, true, hb, rfl⟩
      case false =>
        cases h
        case inl h =>
          obtain ⟨v, rfl, hv⟩ := h
          exact .inl ⟨v, rfl, false, hb, hv⟩
        case inr h =>
          have ⟨hn, hv⟩ := h
          exact .inr ⟨⟨false, hb, hn⟩, hv⟩
    case mpr =>
      rintro (⟨v, rfl, b, hb, hv⟩ | ⟨⟨b, hb, hn⟩, hv⟩)
      · cases b
        · exact ⟨false, hb, .inl ⟨v, rfl, hv⟩⟩
        · exact ⟨true, hb, hv⟩
      · cases b
        · exact ⟨false, hb, .inr ⟨hn, hv⟩⟩
        · simp at hn

theorem listens_of_candidates {n : Node} (h : u ∈ candidates n e eventless) :
    if eventless then u.on.isEventless = true
    else u.on.isExact e.name = true ∨ u.on.isWildcard e.name = true := by
  simp only [candidates] at h
  split at h
  case isTrue ht => simpa [ht] using (List.mem_filter.mp h).right
  case isFalse hf =>
    have h := (List.mem_append.mp h).imp (fun h => (List.mem_filter.mp h).right)
      fun h => (List.mem_filter.mp h).right
    simpa [hf] using h

theorem candidates_subset (n : Node) : candidates n e eventless ⊆ n.transitions := by
  intro u hu
  simp only [candidates] at hu
  split at hu
  · exact List.mem_of_mem_filter hu
  · cases (List.mem_append.mp hu)
    all_goals exact List.mem_of_mem_filter ‹_›

-- The walk from the leaf `l` towards the root ends at `u`.
def Chosen (t : Tree) (r : Registry C S) (policy : GuardPolicy) (c : Configuration) (x : C)
    (e : Event) (eventless : Bool) (l : NodeIndex) (u : Transition) : Prop :=
  (firstEnabled r policy c x e (candidatesFrom t e eventless l)).result = .ok (some u)

theorem mem_candidates (wf : t.WellFormed)
    (h : u ∈ ls.flatMap fun n => candidates (t.node n) e eventless) :
    u ∈ candidates (t.node u.source) e eventless ∧ u.source ∈ ls := by
  have ⟨n, hn, hu⟩ := List.mem_flatMap.mp h
  have hs := wf.source u (candidates_subset _ hu)
  subst hs
  exact ⟨hu, hn⟩

theorem Chosen.mem (wf : t.WellFormed) (h : Chosen t r policy c x e eventless l u) :
    u ∈ (t.node u.source).transitions ∧ u.source ∈ t.path l :=
  (mem_candidates wf (mem_of_firstEnabled h)).imp_left fun hu => candidates_subset _ hu

theorem Chosen.listens (wf : t.WellFormed) (h : Chosen t r policy c x e eventless l u) :
    u ∈ candidates (t.node u.source) e eventless :=
  (mem_candidates wf (mem_of_firstEnabled h)).left

-- A leaf below the source of a transition that another leaf has chosen chooses the same one, or
-- one from further down: on the rest of the way to the root both meet the same candidates.
theorem Chosen.eq_or_below (wf : t.WellFormed) (hv : Chosen t r policy c x e eventless l v)
    (hw : Chosen t r policy c x e eventless l' w) (h : v.source ∈ t.path l') :
    w = v ∨ v.source ∈ t.ancestors w.source := by
  have ⟨p, hp⟩ := wf.path_suffix (hv.mem wf).right
  have ⟨q, hq⟩ := wf.path_suffix h
  have hdis {p l} (hp : p ++ t.path v.source = t.path l) : List.Disjoint p (t.path v.source) :=
    List.disjoint_of_nodup_append (hp ▸ wf.path_nodup l)
  have hv' := hv
  have hw' := hw
  simp only [Chosen, candidatesFrom] at hv hw
  rw [← hp, List.flatMap_append, firstEnabled_append] at hv
  rw [← hq, List.flatMap_append, firstEnabled_append] at hw
  rcases hv with ⟨v, ⟨⟩, hv⟩ | ⟨_, hv⟩
  case inl =>
    exact absurd Tree.self_mem_path (hdis hp (mem_candidates wf (mem_of_firstEnabled hv)).right)
  rcases hw with ⟨w, ⟨⟩, hw⟩ | ⟨_, hw⟩
  case inr => exact .inl (by simp_all)
  have hwq := (mem_candidates wf (mem_of_firstEnabled hw)).right
  cases (wf.comparable h (hw'.mem wf).right)
  case inl hb =>
    refine .inr ((Tree.mem_path.mp hb).resolve_left fun he => ?_)
    exact hdis hq hwq (he ▸ Tree.self_mem_path)
  case inr hb => exact absurd hb (hdis hq hwq)

theorem eq_of_isSame (wf : t.WellFormed) (hu : u ∈ (t.node u.source).transitions)
    (hv : v ∈ (t.node v.source).transitions) (h : u.isSame v = true) : u = v := by
  simp only [Transition.isSame, Bool.and_eq_true, decide_eq_true_eq] at h
  have ⟨i, hi⟩ := List.mem_iff_getElem?.mp hu
  have ⟨j, hj⟩ := List.mem_iff_getElem?.mp hv
  have hij : i = j := by rw [← wf.position i u hi, ← wf.position j v hj, h.right]
  rw [h.left, hij, hj] at hi
  exact (Option.some.inj hi).symm

-- Some leaf of `ls` stands for `u` before any that stands for `v`.
def Before (P : NodeIndex → Transition → Prop) (ls : List NodeIndex) (u v : Transition) : Prop :=
  ∃ l ∈ ls, P l u ∧ ∀ m ∈ ls, P m v → l < m

-- `found` lists what the leaves `ls` stand for, in the order in which it is first met.
structure Collected (P : NodeIndex → Transition → Prop) (ls : List NodeIndex)
    (found : List Transition) : Prop where
  mem {u : Transition} : u ∈ found ↔ ∃ l ∈ ls, P l u
  ordered : found.Pairwise (Before P ls)

section Collected

variable {P : NodeIndex → Transition → Prop}

theorem Before.append (h : Before P ls u v) (hl : ∀ m ∈ ls, m < l) : Before P (ls ++ [l]) u v := by
  have ⟨k, hk, hu, hv⟩ := h
  refine ⟨k, List.mem_append_left _ hk, hu, fun m hm hmv => ?_⟩
  cases (List.mem_append.mp hm)
  case inl hm => exact hv m hm hmv
  case inr hm => exact List.mem_singleton.mp hm ▸ hl k hk

theorem Before.ne (h : Before P ls u v) : u ≠ v := by
  rintro rfl
  have ⟨l, hl, hu, h⟩ := h
  exact (h l hl hu).false

theorem Collected.nodup (h : Collected P ls found) : found.Nodup := h.ordered.imp Before.ne

-- What `o` adds for one more leaf.
theorem Collected.addNew (h : Collected P ls found) (hl : ∀ m ∈ ls, m < l)
    (ho : ∀ u, P l u ↔ o = some u)
    (hs : ∀ u ∈ found, ∀ v, o = some v → u.isSame v = true → u = v) :
    Collected P (ls ++ [l]) (addNew found o) := by
  have hord : found.Pairwise (Before P (ls ++ [l])) := h.ordered.imp fun hb => hb.append hl
  have hmem u : u ∈ found ∨ o = some u ↔ ∃ m ∈ ls ++ [l], P m u := by
    simp only [List.mem_append, List.mem_singleton, or_and_right, exists_or, exists_eq_left, h.mem,
      ho]
  simp only [Selection.addNew]
  match o with
  | none => exact ⟨fun {u} => by simpa using hmem u, hord⟩
  | some v =>
    by_cases hv : found.any (·.isSame v) = true
    case pos =>
      have ⟨u, hu, huv⟩ := List.any_eq_true.mp hv
      have hvf : v ∈ found := hs u hu v rfl huv ▸ hu
      simp only [hv, ↓reduceIte]
      refine ⟨fun {u} => ?_, hord⟩
      rw [← hmem, Option.some.injEq]
      exact ⟨.inl, fun h => h.elim id fun h => h ▸ hvf⟩
    case neg =>
      simp only [hv]
      refine ⟨fun {u} => by simpa [eq_comm] using hmem u,
        List.pairwise_append.mpr ⟨hord, by simp, ?_⟩⟩
      intro u hu w hw
      obtain rfl := List.mem_singleton.mp hw
      have ⟨k, hk, hku⟩ := h.mem.mp hu
      refine ⟨k, List.mem_append_left _ hk, hku, fun m hm hmw => ?_⟩
      cases (List.mem_append.mp hm)
      case inl hm =>
        exact absurd (List.any_eq_true.mpr ⟨w, h.mem.mpr ⟨m, hm, hmw⟩, by simp [Transition.isSame]⟩)
          hv
      case inr hm => exact List.mem_singleton.mp hm ▸ hl k hk

end Collected

theorem leaves_increasing (t : Tree) (c : Configuration) : (c.leaves t).Pairwise (· < ·) :=
  c.increasing.filter _

theorem foldlM_collected (wf : t.WellFormed) (rest : List NodeIndex)
    (hp : (ls ++ rest).Pairwise (· < ·))
    (hf : Collected (Chosen t r policy c x e eventless) ls found)
    (h : (rest.foldlM (fun found leaf => do
      pure (addNew found (← firstEnabled r policy c x e (candidatesFrom t e eventless leaf))))
      found : Evaluation (List Transition)).result = .ok us) :
    Collected (Chosen t r policy c x e eventless) (ls ++ rest) us := by
  induction rest generalizing ls found with
  | nil =>
    cases h
    simpa using hf
  | cons l rest ih =>
    rw [List.foldlM_cons, Evaluation.bind_eq_ok] at h
    have ⟨found', hl, h⟩ := h
    have ⟨o, ho, hfo⟩ := Evaluation.bind_eq_ok.mp hl
    cases hfo
    have hlt m (hm : m ∈ ls) : m < l := (List.pairwise_append.mp hp).right.right m hm l (by simp)
    have hl u : Chosen t r policy c x e eventless l u ↔ o = some u := by
      simp [Chosen, ho]
    have hsame u (hu : u ∈ found) v (hv : o = some v) (huv : u.isSame v = true) : u = v := by
      have ⟨m, _, hm⟩ := hf.mem.mp hu
      exact eq_of_isSame wf (hm.mem wf).left (((hl v).mpr hv).mem wf).left huv
    have hp : ((ls ++ [l]) ++ rest).Pairwise (· < ·) := by simpa using hp
    simpa using ih hp (hf.addNew hlt hl hsame) h

theorem enabled_collected (wf : t.WellFormed)
    (h : (enabled t r policy c x e eventless).result = .ok us) :
    Collected (Chosen t r policy c x e eventless) (c.leaves t) us :=
  have hp : ([] ++ c.leaves t).Pairwise (· < ·) := leaves_increasing t c
  foldlM_collected wf (c.leaves t) hp ⟨by simp, .nil⟩ h

-- `v` comes from below `u`, or else it is met before `u` and `u` does not come from below it.
def Outranks (t : Tree) (seen : List Transition) (v u : Transition) : Prop :=
  u.source ∈ t.ancestors v.source ∨ [v, u].Sublist seen ∧ v.source ∉ t.ancestors u.source

theorem Outranks.append (h : Outranks t us v u) : Outranks t (us ++ [w]) v u :=
  h.imp_right fun ⟨hs, hn⟩ => ⟨hs.trans (List.sublist_append_left ..), hn⟩

-- If `v`, for which `u` was dropped, is displaced by `w`, then `u` can be dropped for `w` just as
-- well. The leaf that chose `u` lies between those of `v` and `w`, so it is below the source of `v`
-- like them, which leaves `u` only a source below that of `v`.
theorem Outranks.displaced (wf : t.WellFormed)
    (hE : Collected (Chosen t r policy c x e eventless) (c.leaves t) vs)
    (hs : (us ++ [w]).Sublist vs) (hu : u ∈ us) (h : Outranks t us v u)
    (huv : conflict t c u v = true) (hw : v.source ∈ t.ancestors w.source)
    (hwv : conflict t c w v = true) :
    u.source ∈ t.ancestors w.source ∧ conflict t c u w = true := by
  have hmem {u} (hu : u ∈ us ++ [w]) : u ∈ (t.node u.source).transitions := by
    have ⟨_, _, h⟩ := hE.mem.mp (hs.subset hu)
    exact (h.mem wf).left
  cases h
  case inl h =>
    have huw := wf.ancestors_of_path_ancestor (Tree.mem_path_of_ancestor h) hw
    have ⟨n, hnc, hnu, _⟩ := conflict_iff.mp huv
    have ⟨m, hmc, hmw, _⟩ := conflict_iff.mp hwv
    refine ⟨huw, conflict_symm ?_⟩
    exact conflict_of_sources wf (hmem (by simp)) (hmem (by simp [hu]))
      (Tree.mem_path_of_ancestor huw) ⟨m, hmc, hmw⟩ ⟨n, hnc, hnu⟩
  case inr h =>
    have ⟨hvu, hn⟩ := h
    have hp := hE.ordered.sublist ((hvu.append (.refl [w])).trans hs)
    simp only [List.cons_append, List.nil_append, List.pairwise_cons, List.mem_cons,
      forall_eq_or_imp] at hp
    have ⟨l, _, hl, hlu⟩ := hp.left.left
    have ⟨k, hk, hku, hkw⟩ := hp.right.left.left
    have ⟨m, hm, hmw⟩ := hE.mem.mp (hs.subset (List.mem_append_right us List.mem_cons_self))
    have hlk := hlu k hk hku
    have hkm := hkw m hm hmw
    have hvm := Tree.mem_path_of_ancestor (wf.ancestors_of_ancestor_path hw (hmw.mem wf).right)
    have hvk := wf.path_of_between ((wf.path_le (hl.mem wf).right).trans hlk.le) hkm.le hvm
    cases (hl.eq_or_below wf hku hvk)
    case inl he => exact absurd he.symm hp.left.left.ne
    case inr hb => exact absurd hb hn

-- What holds of the kept ones among the transitions seen so far.
structure Settled (t : Tree) (c : Configuration) (seen kept : List Transition) : Prop where
  sublist : kept.Sublist seen
  disjoint : kept.Pairwise fun u v => conflict t c u v = false
  dropped {u : Transition} : u ∈ seen → u ∉ kept →
    ∃ v ∈ kept, conflict t c u v = true ∧ Outranks t seen v u

theorem Settled.take (wf : t.WellFormed)
    (hE : Collected (Chosen t r policy c x e eventless) (c.leaves t) vs)
    (hs : (us ++ [w]).Sublist vs) (h : Settled t c us found)
    (hw : ∀ v ∈ found, conflict t c w v = true → v.source ∈ t.ancestors w.source) :
    Settled t c (us ++ [w]) (found.filter (fun v => !conflict t c w v) ++ [w]) where
  sublist := (List.filter_sublist.trans h.sublist).append (.refl [w])
  disjoint := by
    refine List.pairwise_append.mpr ⟨h.disjoint.filter _, by simp, fun u hu v hv => ?_⟩
    obtain rfl := List.mem_singleton.mp hv
    have := (List.mem_filter.mp hu).right
    by_contra hc
    simp [conflict_symm (Bool.eq_true_of_not_eq_false hc)] at this
  dropped {u} hu hnot := by
    simp only [List.mem_append, List.mem_filter, List.mem_singleton, not_or, not_and,
      Bool.not_eq_true', Bool.not_eq_false] at hu hnot
    have hu := hu.resolve_right hnot.right
    by_cases huf : u ∈ found
    case pos =>
      have hwu := hnot.left huf
      exact ⟨w, by simp, conflict_symm hwu, .inl (hw u huf hwu)⟩
    case neg =>
      have ⟨v, hv, huv, ho⟩ := h.dropped hu huf
      by_cases hwv : conflict t c w v = true
      case pos =>
        have ⟨hb, huw⟩ := ho.displaced wf hE hs hu huv (hw v hv hwv) hwv
        exact ⟨w, by simp, huw, .inl hb⟩
      case neg => exact ⟨v, by simp [hv, hwv], huv, ho.append⟩

theorem Settled.drop (h : Settled t c us found) (hv : v ∈ found) (hwv : conflict t c w v = true)
    (hn : v.source ∉ t.ancestors w.source) : Settled t c (us ++ [w]) found where
  sublist := h.sublist.trans (List.sublist_append_left ..)
  disjoint := h.disjoint
  dropped {u} hu hnot := by
    cases (List.mem_append.mp hu)
    case inl hu =>
      have ⟨v, hv, huv, ho⟩ := h.dropped hu hnot
      exact ⟨v, hv, huv, ho.append⟩
    case inr hu =>
      obtain rfl := List.mem_singleton.mp hu
      have hvs := List.singleton_sublist.mpr (h.sublist.subset hv)
      exact ⟨v, hv, hwv, .inr ⟨hvs.append (.refl [u]), hn⟩⟩

theorem Settled.keep (wf : t.WellFormed)
    (hE : Collected (Chosen t r policy c x e eventless) (c.leaves t) vs)
    (hs : (us ++ [w]).Sublist vs) (h : Settled t c us found) :
    Settled t c (us ++ [w]) (keep t c found w) := by
  simp only [Selection.keep]
  split
  case isTrue hk =>
    apply h.take wf hE hs
    intro v hv hwv
    simpa [hwv] using List.all_eq_true.mp hk v hv
  case isFalse hk =>
    simp only [List.all_eq_true, Bool.or_eq_true, Bool.not_eq_true', Tree.isDescendant_iff,
      not_forall, not_or, Bool.not_eq_false] at hk
    obtain ⟨v, hv, hwv, hn⟩ := hk
    exact h.drop hv hwv hn

theorem withoutConflicts_settled (wf : t.WellFormed)
    (hE : Collected (Chosen t r policy c x e eventless) (c.leaves t) vs) (hs : us.Sublist vs) :
    Settled t c us (withoutConflicts t c us) := by
  induction us using List.reverseRecOn with
  | nil => exact ⟨.refl _, .nil, by simp⟩
  | append_singleton us w ih =>
    rw [withoutConflicts, List.foldl_append]
    exact (ih ((List.sublist_append_left ..).trans hs)).keep wf hE hs

theorem conflict_iff_exitSet :
    conflict t c u v = true ↔ ∃ n, n ∈ t.exitSet c u ∧ n ∈ t.exitSet c v := by
  simp only [conflict_iff, Tree.exitSet, SortedSet.mem_filter]
  constructor
  case mp =>
    intro h
    obtain ⟨n, hn, hu, hv⟩ := h
    exact ⟨n, ⟨hn, hu⟩, hn, hv⟩
  case mpr =>
    intro h
    obtain ⟨n, ⟨hn, hu⟩, _, hv⟩ := h
    exact ⟨n, hn, hu, hv⟩

theorem Settled.kept_of_targetless (h : Settled t c us found) (hu : u ∈ us)
    (ht : u.isTargetless = true) : u ∈ found := by
  by_contra hn
  have ⟨v, _, huv, _⟩ := h.dropped hu hn
  have ⟨n, _, hn, _⟩ := conflict_iff.mp huv
  simp [Tree.not_exits_of_targetless ht] at hn

end Selection

variable {C S : Type} {machineId : String} {root : Definition.State} {t : Tree}
  {r : Registry C S} {policy : GuardPolicy} {c : Configuration} {x : C} {e : Event}
  {eventless : Bool} {es us : List Transition}

theorem select_eq_ok : (select t r policy c x e eventless).result = .ok us ↔
    ∃ es, (Selection.enabled t r policy c x e eventless).result = .ok es ∧
      Selection.withoutConflicts t c es = us := by
  simp [select, Evaluation.bind_eq_ok]

theorem select_maximal (hb : root.build machineId = .ok t)
    (he : (Selection.enabled t r policy c x e eventless).result = .ok es) :
    es.Nodup ∧ ∃ us, (select t r policy c x e eventless).result = .ok us ∧ us.Sublist es ∧
      us.Pairwise (fun u v => ∀ n ∈ t.exitSet c u, n ∉ t.exitSet c v) ∧
      (∀ u ∈ es, u ∉ us → ∃ v ∈ us, (∃ n ∈ t.exitSet c u, n ∈ t.exitSet c v) ∧
        (t.isDescendant v.source u.source = true ∨
          [v, u].Sublist es ∧ t.isDescendant u.source v.source = false)) ∧
      ∀ u ∈ es, u.isTargetless = true → u ∈ us := by
  have wf := Definition.State.build_wellFormed hb
  have hE := Selection.enabled_collected wf he
  have h := Selection.withoutConflicts_settled wf hE (.refl es)
  refine ⟨hE.nodup, _, select_eq_ok.mpr ⟨es, he, rfl⟩, h.sublist, h.disjoint.imp ?_, ?_,
    fun u hu ht => h.kept_of_targetless hu ht⟩
  case refine_1 =>
    intro u v huv n hu hv
    simp [Selection.conflict_iff_exitSet.mpr ⟨n, hu, hv⟩] at huv
  case refine_2 =>
    intro u hu hn
    have ⟨v, hv, huv, ho⟩ := h.dropped hu hn
    refine ⟨v, hv, Selection.conflict_iff_exitSet.mp huv, ?_⟩
    simpa [Selection.Outranks, ← Tree.isDescendant_iff] using ho

-- Both the player and the picture on its screen can quit, and the picture does.
theorem select_maximal_player :
    let es := (playerTree.node 2).transitions ++ (playerTree.node 9).transitions.take 1
    let c : Configuration := .ofList [0, 2, 4, 5, 7, 9]
    es.Nodup ∧ ∃ us, (select playerTree ({} : Registry Unit Unit) .treatAsFalse c () ⟨"QUIT", .null⟩
        false).result = .ok us ∧ us.Sublist es ∧
      us.Pairwise (fun u v => ∀ n ∈ playerTree.exitSet c u, n ∉ playerTree.exitSet c v) ∧
      (∀ u ∈ es, u ∉ us → ∃ v ∈ us,
        (∃ n ∈ playerTree.exitSet c u, n ∈ playerTree.exitSet c v) ∧
        (playerTree.isDescendant v.source u.source = true ∨
          [v, u].Sublist es ∧ playerTree.isDescendant u.source v.source = false)) ∧
      ∀ u ∈ es, u.isTargetless = true → u ∈ us :=
  select_maximal player_build
    (Evaluation.eq_ok_of_toOption (by decide +kernel))

end Statechart
