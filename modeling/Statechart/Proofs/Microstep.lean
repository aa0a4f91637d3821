import Mathlib.Data.List.Pairwise
import Statechart.Microstep
import Statechart.Proofs.History
import Statechart.Proofs.Selection

-- Whether the nodes active after a microstep are a legal configuration. This only depends on what
-- each transition targets by itself: transitions that are selected together do not meet.

namespace Statechart

namespace Tree

variable {t : Tree} {c : Configuration} {h : History} {u v : Transition} {d e k n p x : NodeIndex}

namespace WellFormed

variable (wf : t.WellFormed)
include wf

-- What a history node stands for lies at or below its parent.
theorem standsFor_parent (hh : h.Below t) (hs : t.StandsFor h x k)
    (hx : (t.node x).isHistory = true) (hp : (t.node x).parent = some p) : p ∈ t.path k := by
  cases hs with
  | itself hn => simp [hn] at hx
  | recorded _ hf hk => exact mem_path_of_ancestor (hh x p _ hx hp hf k hk)
  | default _ _ hk => exact mem_path_of_ancestor (wf.defaults hx hp k hk).left
  | initial _ _ _ hp' hi =>
    obtain rfl := Option.some.inj (hp.symm.trans hp')
    exact mem_path_of_ancestor
      (wf.mem_ancestors_of_child (mem_regions.mp (wf.initial_mem_regions hi)).left)
  | parent _ _ _ hp' _ =>
    obtain rfl := Option.some.inj (hp.symm.trans hp')
    exact self_mem_path

theorem standsFor_above (hh : h.Below t) (hs : t.StandsFor h x k) (hd : d ∈ t.path x)
    (hn : (t.node d).isHistory = false) : d ∈ t.path k := by
  by_cases hx : (t.node x).isHistory = true
  case neg =>
    cases hs with
    | itself => exact hd
    | _ => contradiction
  case pos =>
    have hda : d ∈ t.ancestors x := by
      apply (mem_path.mp hd).resolve_left
      rintro rfl
      simp [hn] at hx
    have ⟨p, hp⟩ := wf.exists_parent_of_ancestor hda
    have hpk := wf.standsFor_parent hh hs hx (wf.parent_of_child hp)
    exact wf.path_trans ((wf.child hp).right ▸ hda) hpk

theorem standsFor_not_history (hh : h.Within t) (hs : t.StandsFor h x k) :
    (t.node k).isHistory = false := by
  refine wf.not_history_of_standsFor (fun r hx hf k hk => ?_) hs
  have ⟨p, hp⟩ := wf.exists_parent_of_history hx
  exact (hh x p r hx (wf.parent_of_child hp) hf k hk).right

end WellFormed

end Tree

namespace Configuration.Legal

variable {t : Tree} {c : Configuration} {d n x : NodeIndex} (hc : c.Legal t) (wf : t.WellFormed)
include hc wf

-- Below an active node with descendants something is active.
theorem exists_active_below (hn : n ∈ c) (hx : n ∈ t.ancestors x) : ∃ m ∈ c, n ∈ t.ancestors m := by
  have ⟨a, ha, _⟩ := wf.exists_child_above hx
  have ⟨m, hm, hmc⟩ := hc.exists_active_child wf hn ha
  exact ⟨m, hmc, wf.mem_ancestors_of_child hm⟩

end Configuration.Legal

-- What is known of transitions that are selected together.
structure Selected (t : Tree) (c : Configuration) (us : List Transition) : Prop where
  nodup : us.Nodup
  declared {u : Transition} : u ∈ us → u ∈ (t.node u.source).transitions
  active {u : Transition} {d : NodeIndex} : u ∈ us → t.domain u = some d → d ∈ c
  apart : us.Pairwise fun u v => Selection.conflict t c u v = false

variable {C S : Type} {t : Tree} {r : Registry C S} {policy : GuardPolicy} {c : Configuration}
  {x : C} {e : Event} {eventless : Bool} {us : List Transition}

-- What is selected comes from an active node, where it listens for the event.
theorem mem_of_select {u : Transition} (wf : t.WellFormed) (hc : c.Legal t)
    (hs : (select t r policy c x e eventless).result = .ok us) (hu : u ∈ us) :
    u ∈ Selection.candidates (t.node u.source) e eventless ∧ u.source ∈ c := by
  have ⟨es, he, hes⟩ := select_eq_ok.mp hs
  have hE := Selection.enabled_collected wf he
  have h := hes ▸ Selection.withoutConflicts_settled wf hE (.refl es)
  have ⟨l, hl, hlu⟩ := hE.mem.mp (h.sublist.subset hu)
  exact ⟨hlu.listens wf, hc.mem_of_path wf (List.mem_of_mem_filter hl) (hlu.mem wf).right⟩

theorem select_selected (wf : t.WellFormed) (hc : c.Legal t)
    (hs : (select t r policy c x e eventless).result = .ok us) : Selected t c us := by
  have ⟨es, he, hes⟩ := select_eq_ok.mp hs
  have hE := Selection.enabled_collected wf he
  have h := hes ▸ Selection.withoutConflicts_settled wf hE (.refl es)
  have hmem {u} (hu : u ∈ us) : u ∈ (t.node u.source).transitions ∧ u.source ∈ c :=
    (mem_of_select wf hc hs hu).imp_left fun hu => Selection.candidates_subset _ hu
  refine ⟨h.sublist.nodup hE.nodup, fun hu => (hmem hu).left, fun hu hd => ?_, h.disjoint⟩
  have ⟨hu, hc'⟩ := hmem hu
  exact hc.mem_of_path wf hc' (wf.domain_spec hu hd).right.left

namespace Selected

variable {u v : Transition} {a b d d' n k y z : NodeIndex} {h : History}
  (hs : Selected t c us) (wf : t.WellFormed) (hc : c.Legal t)
include hs

theorem conflict_eq_false (hu : u ∈ us) (hv : v ∈ us) (hne : u ≠ v) :
    Selection.conflict t c u v = false := by
  have : Std.Symm fun u v => Selection.conflict t c u v = false :=
    ⟨fun u v h => Selection.conflict_comm t c u v ▸ h⟩
  exact hs.apart.forall hu hv hne

include wf

theorem domain_above (hh : h.Below t) (hu : u ∈ us) (hd : t.domain u = some d)
    (hx : z ∈ u.targets) (hk : t.StandsFor h z k) : d ∈ t.path k :=
  wf.standsFor_above hh hk ((wf.domain_spec (hs.declared hu) hd).right.right z hx)
    (wf.domain_not_history (hs.declared hu) hd)

theorem exists_domain (hh : h.Below t) (hu : u ∈ us) (hk : k ∈ t.Concrete h u.targets) :
    ∃ d, t.domain u = some d ∧ d ∈ t.path k := by
  have ⟨z, hz, hk⟩ := hk
  cases hd : t.domain u with
  | none =>
    have := Tree.isTargetless_iff.mp (Tree.domain_eq_none.mp hd)
    simp [this] at hz
  | some d => exact ⟨d, rfl, hs.domain_above wf hh hu hd hz hk⟩

-- A domain that is not the root has children.
theorem exists_below_domain (hu : u ∈ us) (hd : t.domain u = some d) (hn : n ∈ t.ancestors d) :
    ∃ m, d ∈ t.ancestors m := by
  cases (wf.domain_spec (hs.declared hu) hd).left
  case inl hk =>
    have ⟨i, hi, _⟩ := wf.initial hk
    exact ⟨i, wf.mem_ancestors_of_child (Tree.mem_regions.mp hi).left⟩
  case inr h =>
    subst h
    simp [wf.root_ancestors] at hn

include hc

-- Two domains only lie above each other if there is nothing below the lower one.
theorem not_above_domain (hu : u ∈ us) (hv : v ∈ us) (hne : u ≠ v) (hd : t.domain u = some d)
    (hd' : t.domain v = some d') (h : d ∈ t.path d') : d' ∉ t.ancestors n := by
  intro hn
  have ⟨m, hm, hdm⟩ := hc.exists_active_below wf (hs.active hv hd') hn
  have := Selection.conflict_of_domains wf hd hd' h hm hdm
  simp [hs.conflict_eq_false hu hv hne] at this

-- What two transitions lead to does not disagree on the child of `n`.
theorem child_unique_of_targets (hu : u ∈ us) (hv : v ∈ us) (hne : u ≠ v)
    (hd : t.domain u = some d) (hd' : t.domain v = some d') (hk : (t.node n).kind = .compound)
    (ha : a ∈ t.children n) (hay : a ∈ t.path y) (hdy : d ∈ t.path y)
    (hb : b ∈ t.children n) (hbz : b ∈ t.path z) (hdz : d' ∈ t.path z) : a = b := by
  have han := wf.mem_ancestors_of_child ha
  have hbn := wf.mem_ancestors_of_child hb
  rcases wf.path_child_or_path ha hay hdy, wf.path_child_or_path hb hbz hdz with
    ⟨had | hdn, hbd | hdn'⟩
  · exact hc.child_unique wf hk ha (hc.mem_of_path wf (hs.active hu hd) had)
      hb (hc.mem_of_path wf (hs.active hv hd') hbd)
  · have hnd := wf.ancestors_of_ancestor_path han had
    have ⟨m, hm⟩ := hs.exists_below_domain wf hu hd hnd
    have hdd := Tree.mem_path_of_ancestor (wf.ancestors_of_path_ancestor hdn' hnd)
    exact absurd hm (hs.not_above_domain wf hc hv hu hne.symm hd' hd hdd)
  · have hnd := wf.ancestors_of_ancestor_path hbn hbd
    have ⟨m, hm⟩ := hs.exists_below_domain wf hv hd' hnd
    have hdd := Tree.mem_path_of_ancestor (wf.ancestors_of_path_ancestor hdn hnd)
    exact absurd hm (hs.not_above_domain wf hc hu hv hne hd hd' hdd)
  · cases (wf.comparable hdn hdn')
    case inl hdd =>
      exact absurd (wf.ancestors_of_path_ancestor hdn' han)
        (hs.not_above_domain wf hc hu hv hne hd hd' hdd)
    case inr hdd =>
      exact absurd (wf.ancestors_of_path_ancestor hdn han)
        (hs.not_above_domain wf hc hv hu hne.symm hd' hd hdd)

-- Nor does what stays active.
theorem child_unique_of_remaining (hu : u ∈ us) (hd : t.domain u = some d)
    (hk : (t.node n).kind = .compound) (ha : a ∈ t.children n) (hay : a ∈ t.path y) (hy : y ∈ c)
    (hyu : t.exits u y = false) (hb : b ∈ t.children n) (hbz : b ∈ t.path z)
    (hdz : d ∈ t.path z) : a = b := by
  cases (wf.path_child_or_path hb hbz hdz)
  case inl hbd =>
    exact hc.child_unique wf hk ha (hc.mem_of_path wf hy hay)
      hb (hc.mem_of_path wf (hs.active hu hd) hbd)
  case inr hdn =>
    have hda := wf.ancestors_of_path_ancestor hdn (wf.mem_ancestors_of_child ha)
    have := Tree.exits_iff.mpr ⟨d, hd, wf.ancestors_of_ancestor_path hda hay⟩
    simp [hyu] at this

end Selected

namespace Microstep

variable {h : History} {k n : NodeIndex}

theorem mem_remaining : n ∈ remaining t c us ↔ n ∈ c ∧ ∀ u ∈ us, t.exits u n = false := by
  simp [remaining]

-- What the nodes active next are resolved from.
def seeds (t : Tree) (c : Configuration) (us : List Transition) : List NodeIndex :=
  (remaining t c us).toList ++ us.flatMap (·.targets)

theorem mem_concrete_seeds (hc : c.Legal t) : k ∈ t.Concrete h (seeds t c us) ↔
    k ∈ remaining t c us ∨ ∃ u ∈ us, k ∈ t.Concrete h u.targets := by
  constructor
  case mp =>
    intro ⟨n, hn, hk⟩
    cases (List.mem_append.mp hn)
    case inl hn =>
      have hnc := hc.not_history (mem_remaining.mp hn).left
      cases hk with
      | itself => exact .inl hn
      | _ hh => simp [hnc] at hh
    case inr hn =>
      have ⟨u, hu, hnu⟩ := List.mem_flatMap.mp hn
      exact .inr ⟨u, hu, n, hnu, hk⟩
  case mpr =>
    rintro (hk | ⟨u, hu, n, hn, hk⟩)
    · exact ⟨k, List.mem_append_left _ hk, .itself (hc.not_history (mem_remaining.mp hk).left)⟩
    · exact ⟨n, List.mem_append_right _ (List.mem_flatMap.mpr ⟨u, hu, hn⟩), hk⟩

theorem compatible_seeds (wf : t.WellFormed) (hc : c.Legal t) (hh : h.Within t)
    (hs : Selected t c us) (hk : ∀ u ∈ us, t.Compatible (t.Concrete h u.targets)) :
    t.Compatible (t.Concrete h (seeds t c us)) := by
  intro n hn a ha b hb y hy hay z hz hbz
  rcases (mem_concrete_seeds hc).mp hy, (mem_concrete_seeds hc).mp hz with
    ⟨hy | ⟨u, hu, hyu⟩, hz | ⟨v, hv, hzv⟩⟩
  · have ⟨hyc, _⟩ := mem_remaining.mp hy
    have ⟨hzc, _⟩ := mem_remaining.mp hz
    exact hc.child_unique wf hn ha (hc.mem_of_path wf hyc hay) hb (hc.mem_of_path wf hzc hbz)
  · have ⟨hyc, hyx⟩ := mem_remaining.mp hy
    have ⟨d, hd, hdz⟩ := hs.exists_domain wf hh.below hv hzv
    exact hs.child_unique_of_remaining wf hc hv hd hn ha hay hyc (hyx v hv) hb hbz hdz
  · have ⟨hzc, hzx⟩ := mem_remaining.mp hz
    have ⟨d, hd, hdy⟩ := hs.exists_domain wf hh.below hu hyu
    exact (hs.child_unique_of_remaining wf hc hu hd hn hb hbz hzc (hzx u hu) ha hay hdy).symm
  · by_cases hne : u = v
    case pos =>
      subst hne
      exact hk u hu n hn a ha b hb y hyu hay z hzv hbz
    case neg =>
      have ⟨d, hd, hdy⟩ := hs.exists_domain wf hh.below hu hyu
      have ⟨d', hd', hdz⟩ := hs.exists_domain wf hh.below hv hzv
      exact hs.child_unique_of_targets wf hc hu hv hne hd hd' hn ha hay hdy hb hbz hdz

theorem root_mem_remaining (wf : t.WellFormed) (hc : c.Legal t) :
    Tree.root ∈ remaining t c us := by
  refine mem_remaining.mpr ⟨hc.root, fun u _ => ?_⟩
  by_contra hx
  have ⟨d, _, hd⟩ := Tree.exits_iff.mp (Bool.eq_true_of_not_eq_false hx)
  simp [wf.root_ancestors] at hd

theorem remaining_of_targetless (h : us.all (·.isTargetless) = true) : remaining t c us = c := by
  ext n
  rw [mem_remaining, and_iff_left]
  exact fun u hu => Tree.not_exits_of_targetless (List.all_eq_true.mp h u hu)

-- The next configuration is legal exactly if no transition targets by itself what cannot be active
-- together.
theorem next_legal_iff (wf : t.WellFormed) (hc : c.Legal t) (hh : h.Within t)
    (hs : Selected t c us) :
    (next t c h us).Legal t ↔ ∀ u ∈ us, t.Compatible (t.Concrete h u.targets) := by
  simp only [next]
  split
  case isTrue ht =>
    rw [remaining_of_targetless ht]
    apply iff_of_true hc
    intro u hu
    have hu := Tree.isTargetless_iff.mp (List.all_eq_true.mp ht u hu)
    simp [Tree.Compatible, Tree.Concrete, hu]
  case isFalse =>
    have hmem n : n ∈ t.resolve h (seeds t c us) ↔ t.Entered (t.Concrete h (seeds t c us)) n :=
      wf.mem_resolve
    change (t.resolve h (seeds t c us)).Legal t ↔ _
    constructor
    case mp =>
      intro hl u hu
      apply hl.compatible wf
      intro k hk
      apply (hmem k).mpr
      exact .above ((mem_concrete_seeds hc).mpr (.inr ⟨u, hu, hk⟩)) Tree.self_mem_path
    case mpr =>
      intro hk
      refine Configuration.legal_of_compatible wf (compatible_seeds wf hc hh hs hk) ?_ ?_ hmem
      · exact ⟨Tree.root, (mem_concrete_seeds hc).mpr (.inl (root_mem_remaining wf hc)),
          Tree.self_mem_path⟩
      · intro k hk
        obtain ⟨n, _, hn⟩ := hk
        exact wf.standsFor_not_history hh hn

variable {r' : Registry C S} {e' : Event} {x' : C} {m m' : Microstep C} {raised : List Event}
  {rest after : Configuration} {us' : List Transition}

theorem bind_eq_ok {ε α β : Type} {x : Except ε α} {f : α → Except ε β} {b : β} :
    x >>= f = .ok b ↔ ∃ a, x = .ok a ∧ f a = .ok b := by
  cases x <;> simp [bind, Except.bind]

theorem bind_eq_error {ε α β : Type} {x : Except ε α} {f : α → Except ε β} {err : ε} :
    x >>= f = .error err ↔ x = .error err ∨ ∃ a, x = .ok a ∧ f a = .error err := by
  cases x <;> simp [bind, Except.bind]

theorem eq_ok_of_toOption {ε α : Type} {x : Except ε α} {a : α} (h : x.toOption = some a) :
    x = .ok a := by
  cases x with
  | error => contradiction
  | ok => exact congrArg Except.ok (Option.some.inj h)

-- What is decided of a result holds of one that is there.
theorem exists_eq_ok {ε α : Type} {x : Except ε α} {P : α → Prop} [DecidablePred P]
    (h : x.toOption.any (fun a => P a) = true) : ∃ a, x = .ok a ∧ P a := by
  cases x with
  | error => contradiction
  | ok a => exact ⟨a, rfl, of_decide_eq_true h⟩

-- The history that a microstep leaves behind.
def historyAfter (t : Tree) (c : Configuration) (h : History) (us : List Transition) : History :=
  h.recordExit t c (deepestFirst t (exiting t c us))

-- Plans the exits and then the actions of the transitions themselves.
def leave (t : Tree) (r : Registry C S) (e : Event) (c : Configuration) (x : C)
    (us : List Transition) : Except ExecutionError (Plan C) := do
  let p ← (deepestFirst t (exiting t c us)).foldlM (Plan.exit r e t) { context := x }
  us.foldlM (addTransition t r e) { p with actions := [] }

-- Plans the entries.
def arrive (t : Tree) (r : Registry C S) (e : Event) (x : C) (raised : List Event)
    (rest after : Configuration) : Except ExecutionError (Plan C) :=
  (t.shallowestFirst (after.filter fun n => !rest.contains n).toList).foldlM (enterNode t r e)
    { context := x, raised := raised }

-- Plans all that happens when `us` are taken.
def plan (t : Tree) (r : Registry C S) (e : Event) (c : Configuration) (x : C) (h : History)
    (us : List Transition) : Except ExecutionError (Plan C) := do
  let q ← leave t r e c x us
  arrive t r e q.context q.raised (remaining t c us) (next t c (historyAfter t c h us) us)

theorem enter_of_illegal (hl : after.isLegal t = false) :
    enter t r e m raised rest after = .error .illegal := by
  simp [enter, hl, throw, throwThe, MonadExceptOf.throw, bind, Except.bind]

theorem enter_of_arrive {a : Plan C} (hl : after.isLegal t = true)
    (ha : arrive t r e m.context raised rest after = .ok a) :
    ∃ m', enter t r e m raised rest after = .ok m' ∧ m'.configuration = after ∧
      m'.history = m.history := by
  simp only [arrive] at ha
  simp [enter, hl, planned, ha, Except.mapError, bind, Except.bind, pure, Except.pure]

theorem enter_of_arrive_error {err : ExecutionError} (hl : after.isLegal t = true)
    (ha : arrive t r e m.context raised rest after = .error err) :
    enter t r e m raised rest after = .error (.failed err) := by
  simp only [arrive] at ha
  simp [enter, hl, planned, ha, Except.mapError, bind, Except.bind]

theorem enter_eq_illegal :
    enter t r e m raised rest after = .error .illegal ↔ after.isLegal t = false := by
  cases hl : after.isLegal t
  case false => simpa using enter_of_illegal hl
  case true =>
    cases ha : arrive t r e m.context raised rest after with
    | error => simp [enter_of_arrive_error hl ha]
    | ok =>
      have ⟨m', hm', _⟩ := enter_of_arrive hl ha
      simp [hm']

theorem enter_eq_ok (hm : enter t r e m raised rest after = .ok m') :
    after.isLegal t = true ∧ m'.configuration = after ∧ m'.history = m.history := by
  cases hl : after.isLegal t
  case false => simp [enter_of_illegal hl] at hm
  case true =>
    cases ha : arrive t r e m.context raised rest after with
    | error => simp [enter_of_arrive_error hl ha] at hm
    | ok =>
      have ⟨m'', hm', he⟩ := enter_of_arrive hl ha
      obtain rfl := Except.ok.inj (hm'.symm.trans hm)
      exact ⟨rfl, he⟩

theorem take_of_leave {q : Plan C} (hq : leave t r e c x us = .ok q) :
    ∃ m : Microstep C, m.history = historyAfter t c h us ∧ m.context = q.context ∧
      take t r e c x h us =
        enter t r e m q.raised (remaining t c us) (next t c (historyAfter t c h us) us) := by
  have ⟨p, hp, hq⟩ := bind_eq_ok.mp hq
  simp only [take, planned]
  simp only [hp, hq, Except.mapError, bind, Except.bind]
  exact ⟨_, rfl, rfl, rfl⟩

theorem take_of_leave_error {err : ExecutionError} (hq : leave t r e c x us = .error err) :
    take t r e c x h us = .error (.failed err) := by
  simp only [take, planned]
  cases (bind_eq_error.mp hq)
  case inl hp => simp [hp, Except.mapError, bind, Except.bind]
  case inr h =>
    have ⟨p, hp, hq⟩ := h
    simp [hp, hq, Except.mapError, bind, Except.bind]

theorem take_eq_illegal : take t r e c x h us = .error .illegal ↔
    (∃ q, leave t r e c x us = .ok q) ∧
      (next t c (historyAfter t c h us) us).isLegal t = false := by
  cases hq : leave t r e c x us with
  | error err => simp [take_of_leave_error hq]
  | ok q =>
    have ⟨m, _, _, hm⟩ := take_of_leave (h := h) hq
    rw [hm, enter_eq_illegal]
    simp

-- A microstep that is taken leads to a legal configuration.
theorem take_eq_ok (hm : take t r e c x h us = .ok m) :
    m.configuration = next t c (historyAfter t c h us) us ∧ m.history = historyAfter t c h us ∧
      m.configuration.isLegal t = true := by
  cases hq : leave t r e c x us with
  | error err => simp [take_of_leave_error hq] at hm
  | ok q =>
    have ⟨m₀, hh, _, hm₀⟩ := take_of_leave (h := h) hq
    have ⟨hl, hc, hh'⟩ := enter_eq_ok (hm₀ ▸ hm)
    exact ⟨hc, hh'.trans hh, hc ▸ hl⟩

theorem historyAfter_below (wf : t.WellFormed) (hh : h.Below t) : (historyAfter t c h us).Below t :=
  History.recordExit_below wf hh _

theorem historyAfter_within (wf : t.WellFormed) (hc : c.Legal t) (hh : h.Within t) :
    (historyAfter t c h us).Within t :=
  History.recordExit_within wf hc hh _

theorem historyAfter_joint (wf : t.WellFormed) (hc : c.Legal t) (hh : h.Joint t) :
    (historyAfter t c h us).Joint t :=
  History.recordExit_joint wf hc hh _

theorem next_isLegal_iff (wf : t.WellFormed) (hc : c.isLegal t = true) (hh : h.Within t)
    (hs : (select t r policy c x e eventless).result = .ok us) :
    (next t c (historyAfter t c h us) us).isLegal t = true ↔
      ∀ u ∈ us, t.Compatible (t.Concrete (historyAfter t c h us) u.targets) := by
  have hc := (Configuration.isLegal_iff wf).mp hc
  rw [Configuration.isLegal_iff wf]
  exact next_legal_iff wf hc (historyAfter_within wf hc hh) (select_selected wf hc hs)

-- Selected transitions whose targets can be active together lead to a legal configuration, however
-- many of them there are.
theorem take_legal {machineId : String} {root : Definition.State}
    (hb : root.build machineId = .ok t) (hc : c.isLegal t = true) (hh : h.Within t)
    (hs : (select t r policy c x e eventless).result = .ok us)
    (hk : ∀ u ∈ us, t.Compatible (t.Concrete (historyAfter t c h us) u.targets)) :
    take t r' e' c x' h us ≠ .error .illegal ∧
      ∀ a, plan t r' e' c x' h us = .ok a →
        ∃ m, take t r' e' c x' h us = .ok m ∧ m.configuration.isLegal t = true := by
  have wf := Definition.State.build_wellFormed hb
  have hl := (next_isLegal_iff wf hc hh hs).mpr hk
  constructor
  case left =>
    rw [Ne, take_eq_illegal]
    simp [hl]
  case right =>
    intro a ha
    have ⟨q, hq, ha⟩ := bind_eq_ok.mp ha
    have ⟨m, _, hx, hm⟩ := take_of_leave (h := h) hq
    rw [← hx] at ha
    have ⟨m', hm', hc', _⟩ := enter_of_arrive hl ha
    exact ⟨m', hm.trans hm', hc' ▸ hl⟩

-- The sound and the picture flip together, while the other picture is remembered.
theorem take_legal_player :
    let c : Configuration := .ofList [0, 2, 4, 5, 7, 9]
    let us := (playerTree.node 5).transitions ++ (playerTree.node 9).transitions.drop 1
    ∃ m, take playerTree ({} : Registry Unit Unit) ⟨"FLIP", .null⟩ c ()
      (SortedMap.insert ∅ 8 (.ofList [10])) us = .ok m ∧
        m.configuration.isLegal playerTree = true := by
  intro c us
  have wf := Definition.State.build_wellFormed player_build
  have hh : History.Within playerTree (SortedMap.insert ∅ 8 (.ofList [10])) := by
    intro k p s _ hp hs n hn
    rw [SortedMap.find?_insert] at hs
    split at hs
    case isTrue h =>
      obtain rfl := Option.some.inj hs
      obtain rfl : n = 10 := by simpa using hn
      have h8 : (playerTree.node 8).parent = some 7 := by decide +kernel
      obtain rfl : p = 7 := by simpa [h, h8, eq_comm] using hp
      decide +kernel
    case isFalse => exact History.empty_within k p s ‹_› hp hs n hn
  have hs : (select playerTree ({} : Registry Unit Unit) .treatAsFalse c () ⟨"FLIP", .null⟩
    false).result = .ok us := Evaluation.eq_ok_of_toOption (by decide +kernel)
  have hk : ∀ u ∈ us, (u.targets.flatMap (playerTree.concreteTargets
    (historyAfter playerTree c (SortedMap.insert ∅ 8 (.ofList [10])) us))).length = 1 := by
    decide +kernel
  have ha : (plan playerTree ({} : Registry Unit Unit) ⟨"FLIP", .null⟩ c ()
    (SortedMap.insert ∅ 8 (.ofList [10])) us).isOk = true := by decide +kernel
  cases hp : plan playerTree ({} : Registry Unit Unit) ⟨"FLIP", .null⟩ c ()
    (SortedMap.insert ∅ 8 (.ofList [10])) us with
  | error => simp [hp, Except.isOk, Except.toBool] at ha
  | ok a =>
    refine (take_legal player_build (by decide +kernel) hh hs fun u hu => ?_).right a hp
    obtain ⟨k, hk⟩ := List.length_eq_one_iff.mp (hk u hu)
    apply wf.compatible_of_subsingleton
    intro y hy z hz
    rw [Tree.mem_concrete, hk, List.mem_singleton] at hy hz
    exact hy.trans hz.symm

end Microstep

end Statechart
