import Mathlib.Data.List.Nodup
import Statechart.Macrostep
import Statechart.Proofs.Locality
import Statechart.Proofs.Planning

-- Taking transitions together comes to the same as taking them one after the other, in any order.

namespace Statechart

variable {C S : Type} {t : Tree} {r : Registry C S} {e : Event} {c c' : Configuration} {x : C}
  {h h' : History} {us us' : List Transition} {u v : Transition} {d k n p : NodeIndex}

-- Some of the transitions that are selected together, in any order.
theorem Selected.subset (hs : Selected t c us) (hsub : us' ⊆ us) (hn : us'.Nodup) :
    Selected t c us' where
  nodup := hn
  declared hu := hs.declared (hsub hu)
  active hu := hs.active (hsub hu)
  apart := hn.imp_of_mem fun hu hv hne => hs.conflict_eq_false (hsub hu) (hsub hv) hne

namespace Microstep

variable {m m' : Microstep C}

theorem enters_congr (hu : ∀ z ∈ u.targets, (t.node z).isHistory = true → h.find? z = h'.find? z) :
    Enters t h u n ↔ Enters t h' u n := by
  have hK : t.Concrete h u.targets = t.Concrete h' u.targets := by
    ext k
    rw [Tree.mem_concrete, Tree.mem_concrete, List.mem_flatMap, List.mem_flatMap]
    refine exists_congr fun z => and_congr_right fun hz => ?_
    by_cases hzh : (t.node z).isHistory = true
    case pos => simp only [Tree.concreteTargets, hu z hz hzh]
    case neg => simp [Tree.concreteTargets, hzh]
  rw [Enters, Enters, hK]

-- The order of the transitions only matters for their own actions.
section Order

theorem exitedBy_perm (hp : us'.Perm us) : exitedBy t c us' = exitedBy t c us := by
  have : exiting t c us' = exiting t c us := by
    ext n
    simp [exiting, hp.mem_iff]
  rw [exitedBy, this, exitedBy]

theorem historyAfter_perm (hp : us'.Perm us) : historyAfter t c h us' = historyAfter t c h us :=
  congrArg (h.recordExit t c) (exitedBy_perm hp)

theorem remaining_perm (hp : us'.Perm us) : remaining t c us' = remaining t c us := by
  ext n
  simp [mem_remaining, hp.mem_iff]

theorem next_perm (wf : t.WellFormed) (hp : us'.Perm us) : next t c h us' = next t c h us := by
  simp only [next, hp.all_eq, remaining_perm hp]
  split
  case isTrue => rfl
  case isFalse =>
    ext n
    rw [wf.mem_resolve, wf.mem_resolve]
    have hK : t.Concrete h ((remaining t c us).toList ++ us'.flatMap (·.targets)) =
        t.Concrete h ((remaining t c us).toList ++ us.flatMap (·.targets)) := by
      ext k
      simp [Tree.Concrete, hp.mem_iff]
    rw [hK]

theorem enteredBy_perm (wf : t.WellFormed) (hp : us'.Perm us) :
    enteredBy t c h us' = enteredBy t c h us := by
  rw [enteredBy, enteredBy, historyAfter_perm hp, next_perm wf hp, remaining_perm hp]

end Order

section Sequence

variable (wf : t.WellFormed) (hc : c.Legal t) (hh : h.Below t)
include wf hc hh

theorem mem_enteredBy (hs : Selected t c us) :
    n ∈ enteredBy t c h us ↔ ∃ u ∈ us, Enters t (historyAfter t c h us) u n := by
  rw [enteredBy, wf.mem_shallowestFirst, ← SortedSet.mem_iff, SortedSet.mem_filter,
    mem_next wf hc (historyAfter_below wf hh) hs]
  constructor
  case mp =>
    rintro ⟨hn | hn, hr⟩
    · simp [hn] at hr
    · exact hn
  case mpr =>
    rintro ⟨u, hu, he⟩
    refine ⟨.inr ⟨u, hu, he⟩, ?_⟩
    have hr : n ∉ remaining t c us := by
      intro hn
      simpa [he.exits] using (mem_remaining.mp hn).right u hu
    simpa using hr

-- From here on `v` is taken after the other transitions.
variable (hs : Selected t c (us ++ [v]))
include hs

omit wf hc hh in
theorem selected_init : Selected t c us :=
  hs.subset (List.subset_append_left us [v]) (List.nodup_append.mp hs.nodup).left

omit hh in
theorem not_exits_of_exits_last (hx : t.exits v n = true) (hu : u ∈ us) : t.exits u n = false := by
  by_contra hx'
  have hv := hs.exits_unique wf hc (List.mem_append_left _ hu) (by simp)
    (Bool.eq_true_of_not_eq_false hx') hx
  exact (List.nodup_append.mp hs.nodup).right.right u hu v (by simp) hv

-- What `v` leaves is as it was.
theorem mem_next_init_of_exits (hx : t.exits v n = true) :
    n ∈ next t c (historyAfter t c h us) us ↔ n ∈ c :=
  mem_next_of_not_exits wf hc (historyAfter_below wf hh) (selected_init hs)
    fun _ hu => not_exits_of_exits_last wf hc hs hx hu

-- What `v` makes the history nodes remember is not targeted by the other transitions.
omit hh in
theorem enters_init (hu : u ∈ us) : Enters t (historyAfter t c h us) u n ↔
    Enters t (historyAfter t c h (us ++ [v])) u n := by
  have hu' : u ∈ us ++ [v] := List.mem_append_left _ hu
  have hne : v ≠ u := fun e => (List.nodup_append.mp hs.nodup).right.right u hu v (by simp) e.symm
  refine enters_congr fun z hz hzh => ?_
  have ⟨p, hp⟩ := wf.exists_parent_of_history hzh
  have ⟨kind, hkind⟩ := History.exists_kind hzh
  rw [find?_historyAfter wf hkind (wf.parent_of_child hp),
    find?_historyAfter wf hkind (wf.parent_of_child hp)]
  have hv : t.exits v p = false := by
    by_contra hx
    have ⟨d', hd', hdp⟩ := Tree.exits_iff.mp (Bool.eq_true_of_not_eq_false hx)
    cases hd : t.domain u with
    | none => simp [Tree.isTargetless_iff.mp (Tree.domain_eq_none.mp hd)] at hz
    | some d =>
      have hdz := (wf.domain_spec (hs.declared hu') hd).right.right z hz
      have hdz := (Tree.mem_path.mp hdz).resolve_left fun e =>
        by simp [← e, wf.domain_not_history (hs.declared hu') hd] at hzh
      exact hs.not_both_above wf hc (by simp) hu' hne hd' hd hdp ((wf.child hp).right ▸ hdz)
  simp [mem_exitedBy wf, or_and_right, exists_or, hv]

theorem mem_next_init_of_not_exits (hx : t.exits v n = false) :
    n ∈ next t c (historyAfter t c h us) us ↔
      n ∈ next t c (historyAfter t c h (us ++ [v])) (us ++ [v]) := by
  rw [mem_next wf hc (historyAfter_below wf hh) (selected_init hs),
    mem_next wf hc (historyAfter_below wf hh) hs]
  apply or_congr
  case h₁ => simp [mem_remaining, or_imp, forall_and, hx]
  case h₂ =>
    constructor
    case mp =>
      intro ⟨u, hu, he⟩
      exact ⟨u, List.mem_append_left _ hu, (enters_init wf hc hs hu).mp he⟩
    case mpr =>
      intro ⟨u, hu, he⟩
      cases (List.mem_append.mp hu)
      case inl hu => exact ⟨u, hu, (enters_init wf hc hs hu).mpr he⟩
      case inr hu => simp [← List.mem_singleton.mp hu, he.exits] at hx

-- If taking all of them is possible, so is taking all but the last.
theorem next_init_legal
    (hl : (next t c (historyAfter t c h (us ++ [v])) (us ++ [v])).Legal t) :
    (next t c (historyAfter t c h us) us).Legal t := by
  cases hd : t.domain v with
  | none =>
    have hx n : t.exits v n = false := by simp [Tree.exits, hd]
    have : next t c (historyAfter t c h us) us =
        next t c (historyAfter t c h (us ++ [v])) (us ++ [v]) :=
      SortedSet.ext fun n => mem_next_init_of_not_exits wf hc hh hs (hx n)
    exact this ▸ hl
  | some d =>
    have hdc : d ∈ c := hs.active (by simp) hd
    have hdn : d ∈ next t c (historyAfter t c h (us ++ [v])) (us ++ [v]) :=
      (mem_next_of_not_exits wf hc (historyAfter_below wf hh) hs fun u hu =>
        hs.domain_remains wf hc (by simp) hu hd).mpr hdc
    refine .patch wf hc hl hdc hdn fun n => ?_
    split
    case isTrue h =>
      exact mem_next_init_of_exits wf hc hh hs (Tree.exits_iff.mpr ⟨d, hd, h⟩)
    case isFalse h =>
      apply mem_next_init_of_not_exits wf hc hh hs
      by_contra hx
      obtain ⟨d', hd', hn⟩ := Tree.exits_iff.mp (Bool.eq_true_of_not_eq_false hx)
      exact h (Option.some.inj (hd.symm.trans hd') ▸ hn)

theorem historyAfter_append :
    historyAfter t (next t c (historyAfter t c h us) us) (historyAfter t c h us) [v] =
      historyAfter t c h (us ++ [v]) := by
  refine SortedMap.ext_find? fun k => ?_
  by_cases hk : (t.node k).isHistory = true
  case neg =>
    have hk := Bool.eq_false_of_not_eq_true hk
    simp only [historyAfter, History.find?_recordExit_of_not_history _ hk]
  case pos =>
    obtain ⟨p, hp⟩ := wf.exists_parent_of_history hk
    obtain ⟨kind, hkind⟩ := History.exists_kind hk
    rw [find?_historyAfter wf hkind (wf.parent_of_child hp),
      find?_historyAfter wf hkind (wf.parent_of_child hp),
      find?_historyAfter wf hkind (wf.parent_of_child hp)]
    cases hx : t.exits v p
    case false => simp [mem_exitedBy wf, or_and_right, exists_or, hx]
    case true =>
      have hr : History.remembered t (next t c (historyAfter t c h us) us) p kind =
          History.remembered t c p kind := by
        ext n
        rw [History.mem_remembered, History.mem_remembered]
        apply and_congr_left
        intro hn
        obtain ⟨d, hd, hdp⟩ := Tree.exits_iff.mp hx
        have hpn : p ∈ t.ancestors n := by
          cases kind with
          | shallow => exact wf.mem_ancestors_of_child hn
          | deep => exact hn.right
        have hdn := wf.ancestors_of_path_ancestor (Tree.mem_path_of_ancestor hdp) hpn
        exact mem_next_init_of_exits wf hc hh hs (Tree.exits_iff.mpr ⟨d, hd, hdn⟩)
      simp +contextual [mem_exitedBy wf, mem_next_init_of_exits wf hc hh hs hx, hx, hr]

theorem selected_last : Selected t (next t c (historyAfter t c h us) us) [v] where
  nodup := List.nodup_singleton v
  declared hu := List.mem_singleton.mp hu ▸ hs.declared (by simp)
  active {u d} hu hd := by
    obtain rfl := List.mem_singleton.mp hu
    refine (mem_next_of_not_exits wf hc (historyAfter_below wf hh) (selected_init hs) ?_).mpr
      (hs.active (by simp) hd)
    exact fun v hv => hs.domain_remains wf hc (by simp) (List.mem_append_left _ hv) hd
  apart := List.pairwise_singleton _ v

theorem exitedBy_append : n ∈ exitedBy t c (us ++ [v]) ↔ n ∈ exitedBy t c us ∨
    n ∈ exitedBy t (next t c (historyAfter t c h us) us) [v] := by
  have hv := mem_next_init_of_exits (n := n) wf hc hh hs
  cases hx : t.exits v n
  case false => simp [mem_exitedBy wf, or_and_right, exists_or, hx]
  case true => simp +contextual [mem_exitedBy wf, hv hx, hx]

variable (hl : (next t c (historyAfter t c h us) us).Legal t)
include hl

theorem next_append : next t (next t c (historyAfter t c h us) us)
    (historyAfter t (next t c (historyAfter t c h us) us) (historyAfter t c h us) [v]) [v] =
      next t c (historyAfter t c h (us ++ [v])) (us ++ [v]) := by
  have hb : (historyAfter t c h (us ++ [v])).Below t := historyAfter_below wf hh
  have hv := selected_last wf hc hh hs
  rw [historyAfter_append wf hc hh hs]
  ext n
  cases hx : t.exits v n
  case true =>
    rw [mem_next_of_exits wf hl hb hv (by simp) hx, mem_next_of_exits wf hc hb hs (by simp) hx]
  case false =>
    rw [mem_next_of_not_exits wf hl hb hv (by simpa using hx),
      mem_next_init_of_not_exits wf hc hh hs hx]

theorem enteredBy_append : n ∈ enteredBy t c h (us ++ [v]) ↔ n ∈ enteredBy t c h us ∨
    n ∈ enteredBy t (next t c (historyAfter t c h us) us) (historyAfter t c h us) [v] := by
  rw [mem_enteredBy wf hc hh hs, mem_enteredBy wf hc hh (selected_init hs),
    mem_enteredBy wf hl (historyAfter_below wf hh) (selected_last wf hc hh hs),
    historyAfter_append wf hc hh hs]
  have hu {u} (hu : u ∈ us) := enters_init (n := n) (h := h) wf hc hs hu
  simp only [List.mem_append, List.mem_singleton, or_and_right, exists_or, exists_eq_left]
  exact or_congr_left (exists_congr fun u => and_congr_right fun h => (hu h).symm)

omit hl in
-- All of them can be taken if `v` can be taken once the others are.
theorem exists_take_append (x' : C) : (∃ m, take t r e c x h (us ++ [v]) = .ok m) ↔
    (∃ m, take t r e c x h us = .ok m) ∧
      ∃ m, take t r e (next t c (historyAfter t c h us) us) x' (historyAfter t c h us) [v] =
        .ok m := by
  rw [exists_take, exists_take, exists_take]
  simp only [Configuration.isLegal_iff wf]
  constructor
  case mp =>
    intro ⟨hn, hex, hu, hen⟩
    have hl := next_init_legal wf hc hh hs hn
    simp only [exitedBy_append wf hc hh hs, enteredBy_append wf hc hh hs hl, or_imp,
      forall_and, List.mem_append] at hex hu hen
    exact ⟨⟨hl, hex.left, hu.left, hen.left⟩, next_append wf hc hh hs hl ▸ hn, hex.right, hu.right,
      hen.right⟩
  case mpr =>
    intro ⟨⟨hl, hex, hu, hen⟩, hn, hex', hu', hen'⟩
    simp only [exitedBy_append wf hc hh hs, enteredBy_append wf hc hh hs hl, or_imp,
      forall_and, List.mem_append]
    exact ⟨next_append wf hc hh hs hl ▸ hn, ⟨hex, hex'⟩, ⟨hu, hu'⟩, hen, hen'⟩

end Sequence

-- Takes one transition after the other, each in a microstep of its own.
def takeEach (t : Tree) (r : Registry C S) (e : Event) (s : MachineState C)
    (us : List Transition) : Except Fault (MachineState C) :=
  us.foldlM (fun s u => do
    let m ← take t r e s.configuration s.context s.history [u]
    pure (s.after m)) s

section Each

variable {s s' : MachineState C}

theorem takeEach_append {res : Except Fault (MachineState C)} :
    takeEach t r e s (us ++ [v]) = res ↔
      (takeEach t r e s us >>= fun s' => do
        let m ← take t r e s'.configuration s'.context s'.history [v]
        pure (s'.after m)) = res := by
  simp [takeEach]

theorem takeEach_append_eq_ok : takeEach t r e s (us ++ [v]) = .ok s' ↔
    ∃ s₁, takeEach t r e s us = .ok s₁ ∧
      ∃ m, take t r e s₁.configuration s₁.context s₁.history [v] = .ok m ∧ s₁.after m = s' := by
  simp only [takeEach_append, bind_eq_ok, pure, Except.pure, Except.ok.injEq]

variable (wf : t.WellFormed) (hc : s.configuration.Legal t) (hh : s.history.Below t)
  (hs : Selected t s.configuration us)
include wf hc hh hs

-- What becomes active and what is recorded in the end is the same as when all are taken together.
theorem takeEach_eq_ok (h : takeEach t r e s us = .ok s') :
    s'.configuration = next t s.configuration (historyAfter t s.configuration s.history us) us ∧
      s'.history = historyAfter t s.configuration s.history us ∧ s'.configuration.Legal t := by
  induction us using List.reverseRecOn generalizing s' with
  | nil =>
    obtain rfl : s = s' := by simpa [takeEach, pure, Except.pure] using h
    have hn : exitedBy t s.configuration [] = [] :=
      List.eq_nil_iff_forall_not_mem.mpr fun n => by simp [mem_exitedBy wf]
    refine ⟨?_, ?_, hc⟩
    · ext n
      rw [mem_next wf hc (historyAfter_below wf hh) hs]
      simp [mem_remaining]
    · exact (congrArg (s.history.recordExit t s.configuration) hn).symm
  | append_singleton us v ih =>
    have ⟨s₁, h₁, m, hm, hs'⟩ := takeEach_append_eq_ok.mp h
    have ⟨hc₁, hh₁, hl₁⟩ := ih (selected_init hs) h₁
    have ⟨hmc, hmh, hml⟩ := take_eq_ok hm
    subst hs'
    rw [hc₁, hh₁] at hmc hmh
    refine ⟨?_, ?_, (Configuration.isLegal_iff wf).mp hml⟩
    · exact hmc.trans (next_append wf hc hh hs (hc₁ ▸ hl₁))
    · exact hmh.trans (historyAfter_append wf hc hh hs)

theorem exists_takeEach : (∃ s', takeEach t r e s us = .ok s') ↔
    ∃ m, take t r e s.configuration s.context s.history us = .ok m := by
  induction us using List.reverseRecOn with
  | nil =>
    have h : takeEach t r e s [] = .ok s := rfl
    have hn := (takeEach_eq_ok wf hc hh hs h).left
    simp [takeEach, pure, Except.pure, exists_take, mem_exitedBy wf, mem_enteredBy wf hc hh hs,
      ← hn, (Configuration.isLegal_iff wf).mpr hc]
  | append_singleton us v ih =>
    have ih := ih (selected_init hs)
    constructor
    case mp =>
      intro ⟨s', h⟩
      have ⟨s₁, h₁, m, hm, _⟩ := takeEach_append_eq_ok.mp h
      have ⟨hc₁, hh₁, _⟩ := takeEach_eq_ok wf hc hh (selected_init hs) h₁
      rw [hc₁, hh₁] at hm
      exact (exists_take_append wf hc hh hs _).mpr ⟨ih.mp ⟨s₁, h₁⟩, m, hm⟩
    case mpr =>
      intro h
      have ⟨hu, _⟩ := (exists_take_append wf hc hh hs s.context).mp h
      have ⟨s₁, h₁⟩ := ih.mpr hu
      have ⟨hc₁, hh₁, _⟩ := takeEach_eq_ok wf hc hh (selected_init hs) h₁
      have ⟨m, hm⟩ := ((exists_take_append wf hc hh hs s₁.context).mp h).right
      rw [← hc₁, ← hh₁] at hm
      exact ⟨s₁.after m, takeEach_append_eq_ok.mpr ⟨s₁, h₁, m, hm, rfl⟩⟩

-- None of the microsteps on the way leads to nodes that cannot be active together.
theorem takeEach_ne_illegal (hl : (next t s.configuration
    (historyAfter t s.configuration s.history us) us).Legal t) :
    takeEach t r e s us ≠ .error .illegal := by
  induction us using List.reverseRecOn with
  | nil => simp [takeEach, pure, Except.pure]
  | append_singleton us v ih =>
    have hl₁ := next_init_legal wf hc hh hs hl
    rw [Ne, takeEach_append, bind_eq_error]
    rintro (h | ⟨s₁, h₁, h⟩)
    · exact ih (selected_init hs) hl₁ h
    · have ⟨hc₁, hh₁, _⟩ := takeEach_eq_ok wf hc hh (selected_init hs) h₁
      cases (bind_eq_error.mp h)
      case inl h =>
        have hn := (take_eq_illegal.mp h).right
        rw [hc₁, hh₁, next_append wf hc hh hs hl₁, (Configuration.isLegal_iff wf).mpr hl] at hn
        contradiction
      case inr h => simp [pure, Except.pure] at h

end Each

-- Transitions that are selected together can as well be taken one after the other, in any order,
-- or together in any order.
theorem take_order_irrelevant {machineId : String} {root : Definition.State} {policy : GuardPolicy}
    {eventless : Bool} {e' : Event} {r' : Registry C S} {s : MachineState C}
    (hb : root.build machineId = .ok t) (hc : s.configuration.isLegal t = true)
    (hh : s.history.Below t)
    (hs : (select t r policy s.configuration x e eventless).result = .ok us) (hp : us'.Perm us) :
    ((next t s.configuration (historyAfter t s.configuration s.history us) us).isLegal t = true →
        takeEach t r' e' s us' ≠ .error .illegal) ∧
      ((∃ s', takeEach t r' e' s us' = .ok s') ↔
        ∃ m, take t r' e' s.configuration s.context s.history us = .ok m) ∧
      ∀ m, take t r' e' s.configuration s.context s.history us = .ok m →
        (∀ s', takeEach t r' e' s us' = .ok s' →
          s'.configuration = m.configuration ∧ s'.history = m.history) ∧
        ∃ m', take t r' e' s.configuration s.context s.history us' = .ok m' ∧
          m'.configuration = m.configuration ∧ m'.history = m.history ∧
          m'.exited = m.exited ∧ m'.entered = m.entered := by
  have wf := Definition.State.build_wellFormed hb
  have hc := (Configuration.isLegal_iff wf).mp hc
  have hsel := select_selected wf hc hs
  have hsel' := hsel.subset hp.subset (hp.nodup_iff.mpr hsel.nodup)
  have hh' := historyAfter_perm (t := t) (c := s.configuration) (h := s.history) hp
  have hn := next_perm (c := s.configuration)
    (h := historyAfter t s.configuration s.history us) wf hp
  have hex : (∃ m, take t r' e' s.configuration s.context s.history us' = .ok m) ↔
      ∃ m, take t r' e' s.configuration s.context s.history us = .ok m := by
    rw [exists_take, exists_take, hh', hn, exitedBy_perm hp, enteredBy_perm wf hp]
    simp only [hp.mem_iff]
  refine ⟨fun hl => ?_, (exists_takeEach wf hc hh hsel').trans hex,
    fun m hm => ⟨fun s' hs' => ?_, ?_⟩⟩
  case refine_1 =>
    rw [← hn, ← hh'] at hl
    exact takeEach_ne_illegal wf hc hh hsel' ((Configuration.isLegal_iff wf).mp hl)
  case refine_2 =>
    have ⟨hc', hh'', _⟩ := takeEach_eq_ok wf hc hh hsel' hs'
    have ⟨hmc, hmh, _⟩ := take_eq_ok hm
    rw [hc', hh'', hmc, hmh, hh', hn]
    exact ⟨rfl, rfl⟩
  case refine_3 =>
    have ⟨m', hm'⟩ := hex.mpr ⟨m, hm⟩
    have ⟨hmc, hmh, _⟩ := take_eq_ok hm
    have ⟨hmc', hmh', _⟩ := take_eq_ok hm'
    have ⟨hmx, hmn⟩ := take_lists hm
    have ⟨hmx', hmn'⟩ := take_lists hm'
    refine ⟨m', hm', ?_, hmh'.trans (hh'.trans hmh.symm), ?_, ?_⟩
    · rw [hmc, hmc', hh', hn]
    · rw [hmx, hmx', exitedBy_perm hp]
    · rw [hmn, hmn', enteredBy_perm wf hp]

-- Whether the sound or the picture flips first makes no difference.
theorem take_order_irrelevant_player :
    let r : Registry Unit Unit := {}
    let flip : Event := ⟨"FLIP", .null⟩
    let s : MachineState Unit := { MachineState.unstarted () with
      configuration := .ofList [0, 2, 4, 5, 7, 9] }
    let us := (playerTree.node 5).transitions ++ (playerTree.node 9).transitions.drop 1
    ∃ m s', take playerTree r flip s.configuration s.context s.history us = .ok m ∧
      takeEach playerTree r flip s us.reverse = .ok s' ∧
      s'.configuration = m.configuration ∧ s'.history = m.history := by
  intro r flip s us
  have hs : (select playerTree r .treatAsFalse s.configuration () flip false).result = .ok us :=
    Evaluation.eq_ok_of_toOption (by decide +kernel)
  have hp : us.reverse.Perm us := List.reverse_perm us
  obtain ⟨m, hm, _⟩ : ∃ m, take playerTree r flip s.configuration s.context s.history us = .ok m ∧
      m.configuration = .ofList [0, 2, 4, 6, 7, 10] := exists_eq_ok (by decide +kernel)
  have hex : (∃ s', takeEach playerTree r flip s us.reverse = .ok s') ↔
      ∃ m, take playerTree r flip s.configuration s.context s.history us = .ok m :=
    (take_order_irrelevant (s := s) player_build (by decide +kernel) History.empty_within.below hs
      hp).right.left
  obtain ⟨s', hs'⟩ := hex.mpr ⟨m, hm⟩
  have h := (take_order_irrelevant (s := s) player_build (by decide +kernel)
    History.empty_within.below hs hp).right.right m hm
  exact ⟨m, s', hm, hs', h.left s' hs'⟩

end Microstep

end Statechart
