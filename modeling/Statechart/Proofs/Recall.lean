import Statechart.Proofs.Leaves
import Statechart.Proofs.Locality
import Statechart.Proofs.Trail

-- A transition to a history node brings back what was active when its parent was last exited.

namespace Statechart

namespace Tree

-- What becomes active when `a` is entered and nothing below it is targeted.
inductive DefaultBelow (t : Tree) (a : NodeIndex) : NodeIndex → Prop
  | itself : DefaultBelow t a a
  | region {p n} : DefaultBelow t a p → (t.node p).kind = .parallel → n ∈ t.regions p →
      DefaultBelow t a n
  | initial {p n} : DefaultBelow t a p → (t.node p).initial = some n → DefaultBelow t a n

namespace WellFormed

variable {t : Tree} {a n : NodeIndex} (wf : t.WellFormed)
include wf

theorem path_of_defaultBelow (h : t.DefaultBelow a n) : a ∈ t.path n := by
  have hchild {p n} (hp : a ∈ t.path p) (hn : n ∈ t.regions p) : a ∈ t.path n :=
    mem_path_of_ancestor ((wf.child (mem_regions.mp hn).left).right ▸ hp)
  induction h with
  | itself => exact self_mem_path
  | region _ _ hn ih => exact hchild ih hn
  | initial _ hi ih => exact hchild ih (wf.initial_mem_regions hi)

theorem entered_singleton_iff (han : a ∈ t.path n) :
    t.Entered {a} n ↔ t.DefaultBelow a n := by
  constructor
  case mp =>
    intro he
    induction he with
    | above hk hn =>
      rw [Set.mem_singleton_iff] at hk
      subst hk
      exact le_antisymm (wf.path_le hn) (wf.path_le han) ▸ .itself
    | region _ hk hn ih =>
      cases (wf.path_child (mem_regions.mp hn).left han)
      case inl h => exact h ▸ .itself
      case inr h => exact .region (ih h) hk hn
    | initial _ _ _ hi ih =>
      cases (wf.path_child (mem_regions.mp (wf.initial_mem_regions hi)).left han)
      case inl h => exact h ▸ .itself
      case inr h => exact .initial (ih h) hi
  case mpr =>
    intro h
    clear han
    induction h with
    | itself => exact .above rfl self_mem_path
    | region _ hk hn ih => exact .region ih hk hn
    | initial hp hi ih =>
      refine .initial ih (wf.initial_compound hi) (fun k hk hpk => ?_) hi
      rw [Set.mem_singleton_iff] at hk
      subst hk
      exact absurd (wf.ancestors_lt hpk) (wf.path_le (wf.path_of_defaultBelow hp)).not_gt

end WellFormed

end Tree

namespace Configuration

variable {t : Tree} {K : Set NodeIndex} {c c₀ : Configuration} {a d k n p : NodeIndex}

-- A history node below `p` is to remember `n` once `p` is exited from `c`.
def Remembers (t : Tree) (c : Configuration) (p n : NodeIndex) : HistoryKind → Prop
  | .shallow => n ∈ c ∧ n ∈ t.children p
  | .deep => n ∈ c ∧ p ∈ t.ancestors n ∧ ((t.node n).kind = .atomic ∨ (t.node n).kind = .final)

theorem mem_remembered {kind : HistoryKind} :
    n ∈ History.remembered t c p kind ↔ c.Remembers t p n kind := by
  rw [History.mem_remembered]
  cases kind with
  | shallow => exact .rfl
  | deep => simp [Remembers, Node.isLeaf, and_comm]

-- What a history node below `p` restores of `c₀`.
def Restores (t : Tree) (c₀ c : Configuration) (p : NodeIndex) : HistoryKind → Prop
  | .deep => ∀ n, p ∈ t.ancestors n → (n ∈ c ↔ n ∈ c₀)
  | .shallow => ∀ a ∈ t.children p, (a ∈ c ↔ a ∈ c₀) ∧
      (a ∈ c → ∀ n, a ∈ t.path n → (n ∈ c ↔ t.DefaultBelow a n))

section Restoring

variable (wf : t.WellFormed) (hc : c₀.Legal t) (hp : p ∈ c₀) (hk : k ∈ t.children p)
include wf hc hp hk

-- The leaves below `p` determine all that was active there.
theorem entered_iff_of_leaves
    (hK : ∀ x, p ∈ t.ancestors x → (x ∈ K ↔ x ∈ c₀ ∧ (t.node x).isLeaf = true))
    (hn : p ∈ t.ancestors n) : t.Entered K n ↔ n ∈ c₀ := by
  have hleaf : (t.node p).isLeaf = false := by
    rcases wf.kind_of_children hk with h | h <;> simp [Node.isLeaf, h]
  exact hc.entered_iff_of_leaves_below wf hp hleaf hK (Tree.mem_path_of_ancestor hn)

-- If the active children of `p` are targeted and nothing else is below it, these are entered, and
-- everything below them by default.
theorem entered_iff_of_children
    (hK : ∀ x, p ∈ t.ancestors x → (x ∈ K ↔ x ∈ c₀ ∧ x ∈ t.children p))
    (ha : a ∈ t.children p) : (t.Entered K a ↔ a ∈ c₀) ∧
      (a ∈ c₀ → ∀ n, a ∈ t.path n → (t.Entered K n ↔ t.DefaultBelow a n)) := by
  have hpa := wf.mem_ancestors_of_child ha
  have hpk := wf.mem_ancestors_of_child hk
  have htarget (hac : a ∈ c₀) : t.Entered K a :=
    .above ((hK a hpa).mpr ⟨hac, ha⟩) Tree.self_mem_path
  have habove {x} (hx : x ∈ K) (hax : a ∈ t.path x) : a = x ∧ a ∈ c₀ := by
    have ⟨hxc, hxp⟩ := (hK x (wf.ancestors_of_ancestor_path hpa hax)).mp hx
    have h := wf.child_above_unique ha hxp hax Tree.self_mem_path
    exact ⟨h, h ▸ hxc⟩
  constructor
  case left =>
    refine ⟨fun he => ?_, htarget⟩
    cases (wf.kind_of_children ha)
    case inl hkind =>
      cases (wf.entered_child hkind ha he)
      case inl h =>
        have ⟨x, hx, hax⟩ := h
        exact (habove hx hax).right
      case inr h =>
        have ⟨m, hm, hmc⟩ := hc.exists_active_child wf hp hk
        have hpm := wf.mem_ancestors_of_child hm
        exact absurd hpm (h.left m ((hK m hpm).mpr ⟨hmc, hm⟩))
    case inr hkind =>
      cases (wf.entered_origin he)
      case inl h =>
        have ⟨x, hx, hax⟩ := h
        exact (habove hx hax).right
      case inr h =>
        have ⟨q, _, haq⟩ := h
        obtain rfl := wf.parent_unique (Tree.mem_regions.mp haq).left ha
        exact hc.regions hp hkind haq
  case right =>
    intro hac n han
    have hbelow : t.targetsBelow K a = {a} := by
      ext x
      rw [Set.mem_singleton_iff]
      refine ⟨?_, .inl⟩
      rintro (hx | ⟨hx, hax⟩)
      · exact hx
      · exact (habove hx (Tree.mem_path_of_ancestor hax)).left.symm
    rw [wf.entered_iff_below (htarget hac) han, hbelow, wf.entered_singleton_iff han]

end Restoring

end Configuration

namespace Trail

variable {C S : Type} {r : Registry C S} {ms : List (Microstep C)} {m m' : Microstep C}
  {t : Tree} {c₀ : Configuration} {k n p : NodeIndex} {kind : HistoryKind} {u : Transition}
  {policy : GuardPolicy} {x x' : C} {e e' : Event} {eventless : Bool}

-- What `k` remembers, and nothing else, is targeted below its parent.
theorem mem_configuration_of_recall (wf : t.WellFormed) (ht : Trail t r ms m)
    (hk : (t.node k).kind = .history kind) (hp : (t.node k).parent = some p)
    (hs : (select t r policy m.configuration x e eventless).result = .ok [u])
    (hu : u.targets = [k])
    (hm : Microstep.take t r e' m.configuration x' m.history [u] = .ok m')
    (hc : beforeExit p (m' :: m :: ms) = some c₀) :
    ∃ K : Set NodeIndex,
      (∀ x, p ∈ t.ancestors x → (x ∈ K ↔ x ∈ History.remembered t c₀ p kind)) ∧
      ∀ n, p ∈ t.ancestors n → (n ∈ m'.configuration ↔ t.Entered K n) := by
  have hl := (Configuration.isLegal_iff wf).mp ht.legal
  have hsel := select_selected wf hl hs
  have hkp := wf.parent_eq_some.mp hp
  have hkh : (t.node k).isHistory = true := by simp [Node.isHistory, hk]
  obtain ⟨d, hd⟩ : ∃ d, t.domain u = some d := by
    refine Option.ne_none_iff_exists'.mp fun hd => ?_
    simpa [hu] using Tree.isTargetless_iff.mp (Tree.domain_eq_none.mp hd)
  have hdp : d ∈ t.path p := by
    have hdk := (wf.domain_spec (hsel.declared (by simp)) hd).right.right k (by simp [hu])
    refine (wf.path_child hkp hdk).resolve_left fun h => ?_
    simpa [← h, hkh] using wf.domain_not_history (hsel.declared (by simp)) hd
  have hbelow {n} (hn : p ∈ t.ancestors n) : d ∈ t.ancestors n :=
    wf.ancestors_of_path_ancestor hdp hn
  obtain ⟨hmc, hmh, _⟩ := Microstep.take_eq_ok hm
  have hrecord := (ht.step hs hm).find?_history wf hk hp
  rw [hc, hmh] at hrecord
  refine ⟨t.targetsBelow (t.Concrete (Microstep.historyAfter t m.configuration m.history [u])
    u.targets) d, fun x hx => ?_, fun n hn => ?_⟩
  case refine_1 =>
    have hxd : x ≠ d := fun h => wf.ancestors_ne (hbelow hx) h.symm
    simp only [Tree.targetsBelow, Set.mem_ofPred_eq, hxd, false_or, hbelow hx, and_true]
    simp [Tree.mem_concrete, hu, Tree.concreteTargets, hkh, hrecord, SortedSet.mem_iff]
  case refine_2 =>
    have hw : (Microstep.historyAfter t m.configuration m.history [u]).Below t :=
      Microstep.historyAfter_below wf (ht.within wf).below
    rw [hmc, Microstep.mem_next_of_exits wf hl hw hsel (by simp)
      (Tree.exits_iff.mpr ⟨d, hd, hbelow hn⟩)]
    constructor
    case mp =>
      rintro ⟨d', hd', _, he⟩
      exact Option.some.inj (hd'.symm.trans hd) ▸ he
    case mpr => exact fun he => ⟨d, hd, hbelow hn, he⟩

-- A history node remembers what was active just before its parent was last exited, and a transition
-- to it alone restores this.
theorem recalls {machineId : String} {root : Definition.State} (hb : root.build machineId = .ok t)
    (ht : Trail t r ms m) (hk : (t.node k).kind = .history kind)
    (hp : (t.node k).parent = some p) :
    (beforeExit p (m :: ms) = none → m.history.find? k = none) ∧
    (∀ c₀, beforeExit p (m :: ms) = some c₀ → ∃ s, m.history.find? k = some s ∧
      ∀ n, n ∈ s ↔ c₀.Remembers t p n kind) ∧
    ∀ policy x e eventless u e' x' m' c₀,
      (select t r policy m.configuration x e eventless).result = .ok [u] → u.targets = [k] →
      Microstep.take t r e' m.configuration x' m.history [u] = .ok m' →
      beforeExit p (m' :: m :: ms) = some c₀ →
      Configuration.Restores t c₀ m'.configuration p kind := by
  have wf := Definition.State.build_wellFormed hb
  have hrecord := ht.find?_history wf hk hp
  refine ⟨fun hc => by simpa [hc] using hrecord, fun c₀ hc => ?_,
    fun policy x e eventless u e' x' m' c₀ hs hu hm hc => ?_⟩
  case refine_1 =>
    rw [hc] at hrecord
    exact ⟨_, hrecord, fun n => Configuration.mem_remembered⟩
  case refine_2 =>
    obtain ⟨K, hK, hn⟩ := mem_configuration_of_recall wf ht hk hp hs hu hm hc
    obtain ⟨hl, hpc⟩ := (ht.step hs hm).beforeExit_active wf hc
    have hkp := wf.parent_eq_some.mp hp
    cases kind with
    | deep =>
      intro n hpn
      rw [hn n hpn]
      apply Configuration.entered_iff_of_leaves wf hl hpc hkp _ hpn
      intro x hx
      rw [hK x hx, History.mem_remembered, and_iff_left hx]
    | shallow =>
      intro a ha
      have hpa := wf.mem_ancestors_of_child ha
      obtain ⟨hac, hbelow⟩ := Configuration.entered_iff_of_children wf hl hpc hkp
        (fun x hx => (hK x hx).trans History.mem_remembered) ha
      rw [hn a hpa, hac]
      refine ⟨.rfl, fun hac n han => ?_⟩
      rw [hn n (wf.ancestors_of_ancestor_path hpa han), hbelow hac n han]

-- Peeking at the player that was switched off shows the picture it was left with.
theorem recalls_player : ∃ ms m₃ u m c₀, Trail playerTree ({} : Registry Unit Unit) ms m₃ ∧
    u.targets = [8] ∧ Microstep.take playerTree ({} : Registry Unit Unit) ⟨"PEEK", .null⟩
      m₃.configuration () m₃.history [u] = .ok m ∧
    beforeExit 7 (m :: m₃ :: ms) = some c₀ ∧ 10 ∈ c₀ ∧
    c₀.Restores playerTree m.configuration 7 .shallow ∧ 10 ∈ m.configuration := by
  have ⟨m₀, m₁, m₂, m₃, ht, hc₂, hx₃, hc₃, hh₃⟩ := player
  have hs : (select playerTree ({} : Registry Unit Unit) .treatAsFalse m₃.configuration ()
      ⟨"PEEK", .null⟩ false).result = .ok [(playerTree.node 1).transitions.getLast!] := by
    rw [hc₃]
    exact Evaluation.eq_ok_of_toOption (by decide +kernel)
  have ⟨m, hm, hc, hx⟩ : ∃ m, Microstep.take playerTree ({} : Registry Unit Unit) ⟨"PEEK", .null⟩
      m₃.configuration () m₃.history [(playerTree.node 1).transitions.getLast!] = .ok m ∧
        m.configuration = .ofList [0, 2, 4, 5, 7, 10] ∧ m.exited = [1] :=
    Microstep.exists_eq_ok (by rw [hc₃, hh₃]; decide +kernel)
  have hb : beforeExit 7 [m, m₃, m₂, m₁, m₀] = some m₂.configuration := by
    simp [beforeExit, hx, hx₃]
  have hk : (playerTree.node 8).kind = .history .shallow := by decide +kernel
  have hr := (recalls player_build ht hk (by decide +kernel)).right.right _ _ _ _ _ _ _ _ _ hs
    (by decide +kernel) hm hb
  exact ⟨_, m₃, _, m, _, ht, by decide +kernel, hm, hb, by rw [hc₂]; decide +kernel, hr,
    by rw [hc]; decide +kernel⟩

end Trail

end Statechart
