import Statechart.Proofs.Build
import Statechart.Proofs.Legal

-- A legal configuration is determined by its leaves: every active node has one at or below it, so
-- that nothing is entered by default when they are targeted.

namespace Statechart

namespace Configuration

variable {t : Tree} {K D : Set NodeIndex} {c : Configuration} {n p : NodeIndex}

-- An active node is a leaf or lies above an active one.
theorem Legal.exists_leaf (hc : c.Legal t) (wf : t.WellFormed) (hn : n ∈ c) :
    ∃ l ∈ c, (t.node l).isLeaf = true ∧ n ∈ t.path l := by
  induction h : t.size - n using Nat.strong_induction_on generalizing n with
  | h i ih =>
    have hchild {m} (hm : m ∈ t.children n) (hmc : m ∈ c) :
        ∃ l ∈ c, (t.node l).isLeaf = true ∧ n ∈ t.path l := by
      have hlt : t.size - m < i :=
        h ▸ Nat.sub_lt_sub_left (Tree.lt_size_of_children hm) (wf.lt_of_child hm)
      obtain ⟨l, hl, hleaf, hml⟩ := ih _ hlt hmc rfl
      have hnm := Tree.mem_path_of_ancestor (wf.mem_ancestors_of_child hm)
      exact ⟨l, hl, hleaf, wf.path_trans hnm hml⟩
    cases hk : (t.node n).kind with
    | atomic => exact ⟨n, hn, by simp [Node.isLeaf, hk], Tree.self_mem_path⟩
    | final => exact ⟨n, hn, by simp [Node.isLeaf, hk], Tree.self_mem_path⟩
    | history => simpa [Node.isHistory, hk] using hc.not_history hn
    | compound =>
      obtain ⟨m, hm, hmc⟩ := hc.region hn hk
      exact hchild (Tree.mem_regions.mp hm).left hmc
    | parallel =>
      obtain ⟨m, hm⟩ := wf.parallel hk
      exact hchild (Tree.mem_regions.mp hm).left (hc.regions hn hk hm)

@[simp] theorem mem_leaves : n ∈ c.leaves t ↔ n ∈ c ∧ (t.node n).isLeaf = true := by
  simp [leaves, SortedSet.mem_iff]

section Legal

variable (hc : c.Legal t) (wf : t.WellFormed)
include hc wf

-- `D` is a part of the tree with all that lies below it. What is targeted there is active and has
-- something at or below every active node, so that no initial child is entered.
theorem Legal.entered_iff_within (hdown : ∀ p ∈ D, ∀ n ∈ t.children p, n ∈ D)
    (htop : ∀ p ∉ D, ∀ n ∈ t.children p, n ∈ D → n ∈ c) (hK : ∀ k ∈ K, k ∈ D → k ∈ c)
    (htarget : ∀ n ∈ c, n ∈ D → ∃ k ∈ K, n ∈ t.path k) (hn : n ∈ D) :
    t.Entered K n ↔ n ∈ c := by
  have hchild {p m} (hp : p ∈ D → p ∈ c) (hm : m ∈ t.children p) (hmD : m ∈ D)
      (hactive : p ∈ D → p ∈ c → m ∈ c) : m ∈ c := by
    by_cases hpD : p ∈ D
    case pos => exact hactive hpD (hp hpD)
    case neg => exact htop p hpD m hm hmD
  have hclosed : t.Closed K { n | n ∈ D → n ∈ c } := {
    targets := hK
    parent := by
      intro n hn p hp hpD
      exact hc.parent (hn (hdown p hpD n (wf.parent_eq_some.mp hp))) hp
    regions := by
      intro n hn hkind m hm hmD
      exact hchild hn (Tree.mem_regions.mp hm).left hmD fun _ hnc => hc.regions hnc hkind hm
    initial := by
      intro n hn hkind hnone i hi hiD
      have hin := (Tree.mem_regions.mp (wf.initial_mem_regions hi)).left
      refine hchild hn hin hiD fun hnD hnc => ?_
      obtain ⟨m, hm, hmc⟩ := hc.exists_active_child wf hnc hin
      obtain ⟨k, hk, hmk⟩ := htarget m hmc (hdown n hnD m hm)
      exact absurd (wf.ancestors_of_ancestor_path (wf.mem_ancestors_of_child hm) hmk) (hnone k hk) }
  constructor
  case mp => exact fun he => wf.entered_least hclosed he hn
  case mpr =>
    intro hnc
    obtain ⟨k, hk, hnk⟩ := htarget n hnc hn
    exact .above hk hnk

theorem Legal.entered_iff_of_leaves (hK : ∀ k, k ∈ K ↔ k ∈ c ∧ (t.node k).isLeaf = true) :
    t.Entered K n ↔ n ∈ c := by
  refine hc.entered_iff_within (D := Set.univ) wf ?_ ?_ (fun k hk _ => ((hK k).mp hk).left) ?_
    trivial
  · exact fun _ _ _ _ => trivial
  · exact fun _ hp => absurd trivial hp
  · intro n hn _
    obtain ⟨l, hl, hleaf, hnl⟩ := hc.exists_leaf wf hn
    exact ⟨l, (hK l).mpr ⟨hl, hleaf⟩, hnl⟩

-- Whatever is targeted elsewhere, the leaves below `p` determine all that was active there.
theorem Legal.entered_iff_of_leaves_below (hp : p ∈ c) (hleaf : (t.node p).isLeaf = false)
    (hK : ∀ k, p ∈ t.ancestors k → (k ∈ K ↔ k ∈ c ∧ (t.node k).isLeaf = true))
    (hn : p ∈ t.path n) : t.Entered K n ↔ n ∈ c := by
  refine hc.entered_iff_within (D := { n | p ∈ t.path n }) wf ?_ ?_ ?_ ?_ hn
  · intro q hq m hm
    exact wf.path_trans hq (Tree.mem_path_of_ancestor (wf.mem_ancestors_of_child hm))
  · intro q hq m hm hpm
    exact (wf.path_child hm hpm).resolve_right hq ▸ hp
  · intro k hk hpk
    rcases Tree.mem_path.mp hpk with rfl | hpk
    · exact hp
    · exact ((hK k hpk).mp hk).left
  · intro m hm hpm
    obtain ⟨l, hl, hll, hml⟩ := hc.exists_leaf wf hm
    have hpl : p ≠ l := fun h => by simp [← h, hleaf] at hll
    have hpl := (Tree.mem_path.mp (wf.path_trans hpm hml)).resolve_left hpl
    exact ⟨l, (hK l hpl).mpr ⟨hl, hll⟩, hml⟩

end Legal

theorem not_history_of_leaf (h : (t.node n).isLeaf = true) : (t.node n).isHistory = false := by
  cases hk : (t.node n).kind <;> simp_all [Node.isLeaf, Node.isHistory]

-- Leaves stand for themselves, whatever is recorded.
theorem concrete_of_leaves {h : History} {seeds : List NodeIndex}
    (hs : ∀ n ∈ seeds, n ∈ c.leaves t) : t.Concrete h seeds = { n | n ∈ seeds } :=
  Tree.concrete_eq fun n hn => not_history_of_leaf (mem_leaves.mp (hs n hn)).right

-- Resolving the leaves of a legal configuration gives it back, whatever is recorded, and resolving
-- those below one of its nodes gives back what was active at and below that node. Two legal
-- configurations with the same leaves are therefore the same.
theorem resolve_leaves {machineId : String} {root : Definition.State}
    (hb : root.build machineId = .ok t) (hc : c.isLegal t = true) (h : History) :
    t.resolve h (c.leaves t) = c ∧
    (∀ p ∈ c, (t.node p).isLeaf = false → ∀ n, p ∈ t.path n →
      (n ∈ t.resolve h ((c.leaves t).filter (t.isDescendant · p)) ↔ n ∈ c)) ∧
    ∀ d : Configuration, d.isLegal t = true → d.leaves t = c.leaves t → d = c := by
  have wf := Definition.State.build_wellFormed hb
  have hback {d : Configuration} (hd : d.isLegal t = true) : t.resolve h (d.leaves t) = d := by
    ext n
    rw [wf.mem_resolve, concrete_of_leaves fun _ hn => hn]
    exact ((isLegal_iff wf).mp hd).entered_iff_of_leaves wf fun k => mem_leaves
  refine ⟨hback hc, fun p hp hleaf n hn => ?_, fun d hd he => ?_⟩
  case refine_1 =>
    rw [wf.mem_resolve, concrete_of_leaves fun _ hn => (List.mem_filter.mp hn).left]
    refine ((isLegal_iff wf).mp hc).entered_iff_of_leaves_below wf hp hleaf (fun k hk => ?_) hn
    simp [hk]
  case refine_2 => rw [← hback hd, he, hback hc]

-- The player is loud and its picture bright. From the picture alone the sound would be entered by
-- default, that is quietly; what is remembered does not matter.
theorem resolve_leaves_player :
    let c : Configuration := .ofList [0, 2, 4, 6, 7, 10]
    let h : History := SortedMap.insert ∅ 3 (.ofList [5, 9])
    c.isLegal playerTree = true ∧ c.leaves playerTree = [6, 10] ∧
      playerTree.resolve h [6, 10] = c ∧
      (c.leaves playerTree).filter (playerTree.isDescendant · 7) = [10] ∧
      10 ∈ playerTree.resolve h [10] ∧ 9 ∉ playerTree.resolve h [10] ∧
      5 ∈ playerTree.resolve h [10] := by
  intro c h
  have hc : c.isLegal playerTree = true := by decide +kernel
  have hleaves : c.leaves playerTree = [6, 10] := by decide +kernel
  have hbelow : (c.leaves playerTree).filter (playerTree.isDescendant · 7) = [10] := by
    decide +kernel
  obtain ⟨hback, hdown, _⟩ := resolve_leaves player_build hc h
  have hscreen := hdown 7 (by decide +kernel) (by decide +kernel)
  rw [hleaves] at hback
  rw [hbelow] at hscreen
  exact ⟨hc, hleaves, hback, hbelow, (hscreen 10 (by decide +kernel)).mpr (by decide +kernel),
    fun h9 => absurd ((hscreen 9 (by decide +kernel)).mp h9) (by decide +kernel),
    by decide +kernel⟩

end Configuration

end Statechart
