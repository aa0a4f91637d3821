import Statechart.Proofs.Regular

-- When entering some targets leads to a legal configuration. All that can be wrong is wrong with
-- the targets: what is entered with them neither makes two of them conflict nor keeps them apart.

namespace Statechart

namespace Tree

variable {t : Tree} {h : History} {K : Set NodeIndex} {a b n : NodeIndex}

-- Two targets lie at or below the children `a` and `b` of a node.
def Splits (t : Tree) (K : Set NodeIndex) (a b : NodeIndex) : Prop :=
  (∃ x ∈ K, a ∈ t.path x) ∧ ∃ y ∈ K, b ∈ t.path y

theorem compatible_iff : t.Compatible K ↔ ∀ n, (t.node n).kind = .compound →
    ∀ a ∈ t.children n, ∀ b ∈ t.children n, a ≠ b → ¬ t.Splits K a b := by
  constructor
  case mp =>
    rintro hc n hn a ha b hb hab ⟨⟨x, hx, hax⟩, y, hy, hby⟩
    exact hab (hc n hn a ha b hb x hx hax y hy hby)
  case mpr =>
    intro hp n hn a ha b hb x hx hax y hy hby
    by_contra hab
    exact hp n hn a ha b hb hab ⟨⟨x, hx, hax⟩, y, hy, hby⟩

namespace WellFormed

variable (wf : t.WellFormed)
include wf

-- An initial child is entered only where no target lies below its parent, so that it is never the
-- second child of a compound node to be entered.
theorem entered_splits (hn : (t.node n).kind = .compound) (ha : a ∈ t.children n)
    (hb : b ∈ t.children n) (hab : a ≠ b) :
    t.Entered K a ∧ t.Entered K b ↔ t.Splits K a b := by
  constructor
  case mp =>
    rintro ⟨hae, hbe⟩
    have habove {c x} (hc : c ∈ t.children n) (hcx : c ∈ t.path x) : n ∈ t.ancestors x :=
      wf.ancestors_of_ancestor_path (wf.mem_ancestors_of_child hc) hcx
    rcases wf.entered_child hn ha hae, wf.entered_child hn hb hbe with
      ⟨⟨x, hx, hax⟩ | ⟨hna, hia⟩, ⟨y, hy, hby⟩ | ⟨hnb, hib⟩⟩
    · exact ⟨⟨x, hx, hax⟩, y, hy, hby⟩
    · exact absurd (habove ha hax) (hnb x hx)
    · exact absurd (habove hb hby) (hna y hy)
    · exact absurd (Option.some.inj (hia.symm.trans hib)) hab
  case mpr =>
    rintro ⟨⟨x, hx, hax⟩, y, hy, hby⟩
    exact ⟨.above hx hax, .above hy hby⟩

-- No history node is entered that is not itself a target.
theorem entered_history (hn : (t.node n).isHistory = true) : t.Entered K n ↔ n ∈ K := by
  refine ⟨fun he => ?_, fun hk => .above hk self_mem_path⟩
  rcases wf.entered_origin he with ⟨k, hk, hnk⟩ | ⟨p, _, hp⟩
  · rcases mem_path.mp hnk with h | ha
    · exact h ▸ hk
    · simp [wf.not_history_of_ancestor ha] at hn
  · simp [(mem_regions.mp hp).right] at hn

end WellFormed

variable {machineId : String} {root : Definition.State}

-- What nodes of a tree resolve to is legal exactly if they stand for anything, for no history node,
-- and for no two nodes at or below different children of a compound node. Two children of a
-- compound node become active, and a history node does, for no other reason than the targets.
theorem resolve_legal_iff (hb : root.build machineId = .ok t)
    (hr : ∀ k r, h.find? k = some r → ∀ n ∈ r, n < t.size) (seeds : List NodeIndex)
    (hs : ∀ n ∈ seeds, n < t.size) :
    ((t.resolve h seeds).isLegal t = true ↔ (t.Concrete h seeds).Nonempty ∧
      (∀ k ∈ t.Concrete h seeds, (t.node k).isHistory = false) ∧
      ∀ n, (t.node n).kind = .compound → ∀ a ∈ t.children n, ∀ b ∈ t.children n, a ≠ b →
        ¬ t.Splits (t.Concrete h seeds) a b) ∧
    (∀ n, (t.node n).kind = .compound → ∀ a ∈ t.children n, ∀ b ∈ t.children n, a ≠ b →
      (a ∈ t.resolve h seeds ∧ b ∈ t.resolve h seeds ↔ t.Splits (t.Concrete h seeds) a b)) ∧
    ∀ n, (t.node n).isHistory = true →
      (n ∈ t.resolve h seeds ↔ n ∈ t.Concrete h seeds) := by
  have wf := Definition.State.build_wellFormed hb
  have hlt : ∀ k ∈ t.Concrete h seeds, k < t.size :=
    fun _ hk => hk.elim fun n h => standsFor_lt wf (fun r _ => hr n r) (hs n h.left) h.right
  refine ⟨?_, fun n hn a ha b hb hab => ?_, fun n hn => ?_⟩
  case refine_1 =>
    rw [resolve_isLegal wf hlt, compatible_iff]
    exact Iff.rfl
  case refine_2 =>
    rw [wf.mem_resolve, wf.mem_resolve]
    exact wf.entered_splits hn ha hb hab
  case refine_3 =>
    rw [wf.mem_resolve]
    exact wf.entered_history hn

-- The loud sound and the dark picture are remembered. They go together, but not with the bright
-- one.
theorem resolve_legal_iff_player :
    let h : History := SortedMap.insert ∅ 3 (.ofList [6, 9])
    (playerTree.Concrete h [3]).Nonempty ∧
      (playerTree.resolve h [3, 10]).isLegal playerTree = false ∧
      playerTree.Splits (playerTree.Concrete h [3, 10]) 9 10 := by
  intro h
  have hr k r (hf : h.find? k = some r) : ∀ n ∈ r, n < playerTree.size := by
    rw [SortedMap.find?_insert] at hf
    split at hf
    · obtain rfl := Option.some.inj hf
      decide +kernel
    · cases hf
  have hone := resolve_legal_iff player_build hr [3] (by decide +kernel)
  have htwo := resolve_legal_iff player_build hr [3, 10] (by decide +kernel)
  exact ⟨(hone.left.mp (by decide +kernel)).left, by decide +kernel,
    (htwo.right.left 7 (by decide +kernel) 9 (by decide +kernel) 10 (by decide +kernel)
      (by decide)).mp (by decide +kernel)⟩

end Tree

end Statechart
