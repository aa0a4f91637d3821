import Statechart.Proofs.Announcement

-- In which order the parallel nodes that one microstep completes announce themselves.

namespace Statechart

variable {C S : Type} {t : Tree} {r : Registry C S} {c : Configuration} {us : List Transition}
  {m : Microstep C} {machineId : String} {root : Definition.State} {f n p q : NodeIndex}

-- What is in front of the first `b` stays there when repetitions are dropped.
theorem sublist_eraseDups {a b : NodeIndex} {l₁ l₂ : List NodeIndex} (ha : a ∈ l₁) (hb : b ∉ l₁)
    (hb' : b ∈ l₂) : [a, b].Sublist (l₁ ++ l₂).eraseDups := by
  have hb' : b ∈ l₂.removeAll l₁ := by simp [List.removeAll, hb, hb']
  have ha := List.singleton_sublist.mpr (List.mem_eraseDups.mpr ha)
  have hb := List.singleton_sublist.mpr (List.mem_eraseDups.mpr hb')
  rw [List.eraseDups_append]
  exact ha.append hb

theorem not_sublist_swap {a b : NodeIndex} {l : List NodeIndex} (hl : l.Nodup)
    (h : [a, b].Sublist l) : ¬ [b, a].Sublist l := by
  induction l with
  | nil => simp
  | cons x l ih =>
    obtain ⟨hx, hl⟩ := List.nodup_cons.mp hl
    intro h'
    cases h with
    | cons _ h =>
      cases h' with
      | cons _ h' => exact ih hl h h'
      | cons_cons _ _ => exact hx (h.subset (by simp))
    | cons_cons _ h =>
      cases h' with
      | cons _ h' => exact hx (h'.subset (by simp))
      | cons_cons _ h' => exact hx (h'.subset (by simp))

namespace Configuration.Legal

variable (hc : c.Legal t) (wf : t.WellFormed)
include hc wf

theorem mem_of_complete (h : c.Complete t n) : n ∈ c := by
  induction h with
  | final _ hn => exact hn
  | compound _ hk _ hkc => exact hc.parent hkc (wf.parent_of_child hk)
  | parallel hk _ ih =>
    obtain ⟨m, hm⟩ := wf.parallel hk
    exact hc.parent (ih m hm) (wf.parent_of_child (Tree.mem_regions.mp hm).left)

-- Between an active node that is not final and a complete parallel node above it there are parallel
-- nodes only, as a compound node is complete through a final child.
theorem inParallel_of_complete (hn : n ∈ c) (hk : (t.node n).kind ≠ .final)
    (hqn : q ∈ t.ancestors n) (hqk : (t.node q).kind = .parallel) (hq : c.Complete t q) :
    Relation.TransGen t.InParallel n q := by
  induction n using Nat.strong_induction_on with
  | h n ih =>
    obtain ⟨p, hp⟩ := wf.exists_parent_of_ancestor hqn
    have hpc := hc.parent hn (wf.parent_of_child hp)
    have hqp : q ∈ t.path p := (wf.child hp).right ▸ hqn
    cases Tree.mem_path.mp hqp
    case inl he =>
      subst he
      exact .single ⟨hp, hqk⟩
    case inr hqp =>
      have hpk := wf.kind_of_children hp
      have hpq := ih p (wf.lt_of_child hp) hpc (by rcases hpk with h | h <;> simp [h]) hqp
      have hcomplete := hq.of_above wf (wf.not_history_of_children hp) hpq.to_reflTransGen
      refine .head ⟨hp, hpk.resolve_left fun hcompound => ?_⟩ hpq
      cases hcomplete with
      | final h => simp [h] at hcompound
      | parallel h => simp [h] at hcompound
      | compound _ hm hf hmc =>
        obtain rfl := hc.child_unique wf hcompound hm hmc hp hn
        exact hk hf

end Configuration.Legal

namespace Tree

variable (wf : t.WellFormed)
include wf

-- The chain of a final node comes in document order reversed, hence the inner of two nodes first.
theorem completedAbove_decreasing (done : NodeSet) :
    (t.completedAbove done f).Pairwise (· > ·) := by
  rw [completedAbove]
  split
  case h_1 => exact .nil
  case h_2 p _ =>
    exact (List.pairwise_cons.mp (wf.path_decreasing p)).right.sublist (List.takeWhile_sublist _)

variable {done : NodeSet} {before after : List NodeIndex}

-- A chain through `q` and then `p` puts `q` first, unless `p` has been there before it.
theorem inner_first (hpq : p < q) (hq : q ∈ t.completedAbove done f)
    (hp : p ∈ t.completedAbove done f) (hb : ∀ g ∈ before, p ∉ t.completedAbove done g) :
    [q, p].Sublist ((before ++ f :: after).flatMap (t.completedAbove done)).eraseDups := by
  obtain ⟨x, y, hxy⟩ := List.append_of_mem hq
  have hd := completedAbove_decreasing wf (f := f) done
  rw [hxy, List.pairwise_append, List.pairwise_cons] at hd
  have hx : p ∉ x := fun hx => absurd (hd.right.right p hx q (by simp)) (by simpa using hpq.le)
  have hy : p ∈ y := by simpa [hxy, hx, hpq.ne] using hp
  have hl : (before ++ f :: after).flatMap (t.completedAbove done) =
      (before.flatMap (t.completedAbove done) ++ x ++ [q]) ++
        (y ++ after.flatMap (t.completedAbove done)) := by simp [hxy]
  rw [hl]
  exact sublist_eraseDups (by simp) (by simpa [hx, hpq.ne] using hb) (by simp [hy])

omit wf in
-- A chain through `p` alone puts `p` first, unless `q` has been there before it.
theorem outer_first (hq : q ∉ t.completedAbove done f) (hp : p ∈ t.completedAbove done f)
    (hb : ∀ g ∈ before, q ∉ t.completedAbove done g)
    (ha : ∃ g ∈ after, q ∈ t.completedAbove done g) :
    [p, q].Sublist ((before ++ f :: after).flatMap (t.completedAbove done)).eraseDups := by
  have hl : (before ++ f :: after).flatMap (t.completedAbove done) =
      (before.flatMap (t.completedAbove done) ++ t.completedAbove done f) ++
        after.flatMap (t.completedAbove done) := by simp
  rw [hl]
  exact sublist_eraseDups (by simp [hp]) (by simpa [hq] using hb) (by simpa using ha)

end Tree

-- `f` is the first of the nodes `entered` to reach `p`.
def Tree.ReachesFirst (t : Tree) (entered : List NodeIndex) (f p : NodeIndex) : Prop :=
  ∃ before after, entered = before ++ f :: after ∧ t.Reaches f p ∧ ∀ g ∈ before, ¬ t.Reaches g p

theorem Tree.exists_reachesFirst {entered : List NodeIndex} (h : ∃ f ∈ entered, t.Reaches f p) :
    ∃ f, t.ReachesFirst entered f p := by
  classical
  have hs : (entered.find? (t.Reaches · p)).isSome := by simpa using h
  obtain ⟨f, hf⟩ := Option.isSome_iff_exists.mp hs
  obtain ⟨hfp, before, after, he, hb⟩ := List.find?_eq_some_iff_append.mp hf
  exact ⟨f, before, after, he, by simpa using hfp, by simpa using hb⟩

-- The parallel nodes `qs`, which a microstep completes, announce themselves last. Of two of them,
-- one inside the other, the inner one comes first exactly if the first of the entered final nodes
-- to reach the outer one reaches the inner one, too.
structure Cascades (t : Tree) (us : List Transition) (m : Microstep C) (qs : List NodeIndex) :
    Prop where
  raised : m.raised =
    m.exited.flatMap (fun n => (t.node n).exit.flatMap Action.raises) ++
    us.flatMap (fun u => u.actions.flatMap Action.raises) ++
    m.entered.flatMap (fun n =>
      (t.node n).entry.flatMap Action.raises ++ (t.doneEvent? n).toList) ++
    qs.map fun q => .doneState (t.node q).id .null
  mem {q : NodeIndex} : q ∈ qs ↔ q ≠ Tree.root ∧ (t.node q).kind = .parallel ∧
    m.configuration.Complete t q ∧ ∃ f ∈ m.entered, t.Reaches f q
  once : qs.Nodup
  order {p q : NodeIndex} : p ∈ qs → q ∈ qs → p ∈ t.ancestors q →
    ∃ f, t.ReachesFirst m.entered f p ∧
      ([q, p].Sublist qs ↔ t.Reaches f q) ∧ ([p, q].Sublist qs ↔ ¬ t.Reaches f q)

namespace Microstep.Arises

-- A final node that reaches the inner of two complete parallel nodes reaches the outer one, too.
theorem reaches_outer (hb : root.build machineId = .ok t) (ha : Arises t r c us m)
    (hq : (t.node q).kind = .parallel ∧ m.configuration.Complete t q)
    (hp : (t.node p).kind = .parallel ∧ m.configuration.Complete t p) (hpq : p ∈ t.ancestors q)
    (hf : t.Reaches f q) : t.Reaches f p := by
  have wf := Definition.State.build_wellFormed hb
  have hl := (Configuration.isLegal_iff wf).mp ha.legal
  have hqp := hl.inParallel_of_complete wf (hl.mem_of_complete wf hq.right) (by simp [hq.left]) hpq
    hp.left hp.right
  obtain ⟨k, hfk, hfp, hk, hkq⟩ := hf
  exact ⟨k, hfk, hfp, hk, hkq.trans hqp.to_reflTransGen⟩

-- Which of two complete parallel nodes, one inside the other, comes first.
theorem completedParallels_order (hb : root.build machineId = .ok t) (ha : Arises t r c us m)
    (hq : (t.node q).kind = .parallel ∧ m.configuration.Complete t q)
    (hp : (t.node p).kind = .parallel ∧ m.configuration.Complete t p) (hpq : p ∈ t.ancestors q)
    (hfirst : t.ReachesFirst m.entered f p) (hreach : ∃ g ∈ m.entered, t.Reaches g q) :
    (t.Reaches f q → [q, p].Sublist (t.completedParallels m.configuration m.entered)) ∧
      (¬ t.Reaches f q → [p, q].Sublist (t.completedParallels m.configuration m.entered)) := by
  have wf := Definition.State.build_wellFormed hb
  have houter {g} := ha.reaches_outer hb (f := g) hq hp hpq
  obtain ⟨before, after, he, hf, hbefore⟩ := hfirst
  have hchain {g q : NodeIndex} (hq : (t.node q).kind = .parallel ∧ m.configuration.Complete t q) :
      q ∈ t.completedAbove (m.configuration.completed t) g ↔ t.Reaches g q :=
    (Tree.mem_completedAbove wf).trans (by simp [hq])
  rw [Tree.completedParallels, he]
  constructor
  case left =>
    intro h
    exact Tree.inner_first wf (wf.ancestors_lt hpq) ((hchain hq).mpr h) ((hchain hp).mpr hf)
      fun g hg => mt (hchain hp).mp (hbefore g hg)
  case right =>
    intro h
    have hnot {g} (hg : g ∈ before) : ¬ t.Reaches g q := mt houter (hbefore g hg)
    have hafter : ∃ g ∈ after, t.Reaches g q := by
      obtain ⟨g, hg, hgq⟩ := hreach
      rw [he, List.mem_append, List.mem_cons] at hg
      rcases hg with hg | rfl | hg
      · exact absurd hgq (hnot hg)
      · exact absurd hgq h
      · exact ⟨g, hg, hgq⟩
    simp only [← hchain hq] at h hnot hafter
    exact Tree.outer_first h ((hchain hp).mpr hf) (fun _ => hnot) hafter

theorem cascades (hb : root.build machineId = .ok t) (ha : Arises t r c us m) :
    ∃ qs, Cascades t us m qs := by
  have wf := Definition.State.build_wellFormed hb
  let qs := (t.completedParallels m.configuration m.entered).filter (· ≠ Tree.root)
  have hqs {q} : q ∈ qs ↔ q ≠ Tree.root ∧ (t.node q).kind = .parallel ∧
      m.configuration.Complete t q ∧ ∃ f ∈ m.entered, t.Reaches f q := by
    simp [qs, Tree.mem_completedParallels wf, and_comm]
  have honce : qs.Nodup := (Tree.completedParallels_nodup _ _ _).filter _
  have hsub {a b} (ha : a ∈ qs) (hb : b ∈ qs)
      (h : [a, b].Sublist (t.completedParallels m.configuration m.entered)) :
      [a, b].Sublist qs := by
    have h := h.filter (· ≠ Tree.root)
    rwa [List.filter_eq_self.mpr (by simp [(hqs.mp ha).left, (hqs.mp hb).left])] at h
  refine ⟨qs, { raised := ha.raised_eq, mem := hqs, once := honce, order := ?_ }⟩
  intro p q hp hq hpq
  obtain ⟨_, hpk, hpc, hpf⟩ := hqs.mp hp
  obtain ⟨_, hqk, hqc, hqf⟩ := hqs.mp hq
  obtain ⟨f, hf⟩ := Tree.exists_reachesFirst hpf
  obtain ⟨hinner, houter⟩ := ha.completedParallels_order hb ⟨hqk, hqc⟩ ⟨hpk, hpc⟩ hpq hf hqf
  refine ⟨f, hf, ?_⟩
  by_cases h : t.Reaches f q
  case pos =>
    have hqp := hsub hq hp (hinner h)
    exact ⟨iff_of_true hqp h, iff_of_false (not_sublist_swap honce hqp) (not_not_intro h)⟩
  case neg =>
    have hpq := hsub hp hq (houter h)
    exact ⟨iff_of_false (not_sublist_swap honce hpq) h, iff_of_true hpq h⟩

end Microstep.Arises

-- A show whose lights go out, with the only spot, while the sound is over, too.
def finale : Definition.State :=
  .mk { key := "m", initial := some "show" } [
    .mk { key := "show", shape := .parallel } [
      .mk { key := "lights", shape := .parallel } [
        .mk { key := "spot", initial := some "dark" } [
          .mk { key := "dark", shape := .final } []]],
      .mk { key := "sound", shape := .parallel } [
        .mk { key := "mic", initial := some "mute" } [
          .mk { key := "mute", shape := .final } []]]]]

def finaleTree : Tree := ((Definition.Layout.ofState "m" finale).lower "m").value

theorem finale_build : finale.build "m" = .ok finaleTree :=
  Definition.State.build_of_problems (by decide +kernel)

def finaleStarts : Event := ⟨"init", .null⟩

theorem finale_initial : ∃ m : Microstep Unit,
    Microstep.initial finaleTree ({} : Registry Unit Unit) finaleStarts () ∅ = .ok m ∧
      m.raised = [.doneState "m.show.lights.spot" .null, .doneState "m.show.sound.mic" .null,
        .doneState "m.show.lights" .null, .doneState "m.show" .null,
        .doneState "m.show.sound" .null] :=
  Microstep.exists_eq_ok (by decide +kernel)

theorem cascades_finale : ∃ m qs, Cascades finaleTree [] (m : Microstep Unit) qs ∧
    m.raised = [.doneState "m.show.lights.spot" .null, .doneState "m.show.sound.mic" .null,
      .doneState "m.show.lights" .null, .doneState "m.show" .null,
      .doneState "m.show.sound" .null] := by
  obtain ⟨m, hm, hr⟩ := finale_initial
  obtain ⟨qs, hqs⟩ := Microstep.Arises.cascades finale_build (.initial hm)
  exact ⟨m, qs, hqs, hr⟩

-- The show announces itself before the sound inside it.
theorem exists_outer_before_inner : ∃ (t : Tree) (r : Registry Unit Unit) (m : Microstep Unit)
    (p q : NodeIndex), finale.build "m" = .ok t ∧ Microstep.Arises t r ∅ [] m ∧
      p ∈ t.ancestors q ∧ (t.node p).kind = .parallel ∧ (t.node q).kind = .parallel ∧
      .doneState (t.node q).id .null ∈ m.raised ∧ ∃ before after, m.raised =
        before ++ .doneState (t.node p).id .null :: after ∧
        .doneState (t.node q).id .null ∉ before := by
  obtain ⟨m, hm, hr⟩ := finale_initial
  refine ⟨finaleTree, {}, m, 1, 5, finale_build, .initial hm, by decide +kernel,
    by decide +kernel, by decide +kernel, ?_, ?_⟩
  · rw [hr]
    decide +kernel
  · exact ⟨m.raised.take 3, m.raised.drop 4, by rw [hr]; decide +kernel, by rw [hr]; decide +kernel⟩

end Statechart
