import Mathlib.Data.List.Nodup
import Statechart.Proofs.Build
import Statechart.Proofs.KeyPath
import Statechart.Proofs.Legal
import Statechart.StateValue

-- What the nested view of a configuration shows: at the key path of a node, whether it is active.

namespace Statechart

namespace StateValue

variable {t : Tree} {c d : Configuration} {n m : NodeIndex} {depth : Nat} {below : List String}

@[simp] theorem matchesKeys_nil (v : StateValue) : v.matchesKeys [] = true := by
  cases v <;> rfl

@[simp] theorem matchesKeys_leaf {key k : String} :
    (leaf key).matchesKeys (k :: below) = true ↔ key = k ∧ below = [] := by
  simp [matchesKeys]

@[simp] theorem matchesKeys_branch {entries : List (String × StateValue)} {k : String} :
    (branch entries).matchesKeys (k :: below) = true ↔
      ∃ e ∈ entries, e.1 = k ∧ e.2.matchesKeys below = true := by
  rw [matchesKeys]
  induction entries with
  | nil => simp [matchesSome]
  | cons e more ih => simp [matchesSome, ih]

-- Of a parallel node the view shows all regions.
theorem matchesKeys_parallel (hk : t.Keyed) (hkind : (t.node n).kind = .parallel)
    (hm : m ∈ t.children n) :
    (under t c (depth + 1) n).matchesKeys ((t.node m).key :: below) = true ↔
      m ∈ c ∧ (under t c depth m).matchesKeys below = true := by
  simp only [under, hkind, matchesKeys_branch, List.mem_map, List.mem_filter,
    SortedSet.contains_iff]
  constructor
  case mp =>
    rintro ⟨_, ⟨a, ⟨ha, hac⟩, rfl⟩, hkey, hbelow⟩
    obtain rfl := hk.distinct ha hm hkey
    exact ⟨hac, hbelow⟩
  case mpr =>
    rintro ⟨hmc, hbelow⟩
    exact ⟨_, ⟨m, ⟨hm, hmc⟩, rfl⟩, rfl, hbelow⟩

-- Nothing lies below a leaf.
theorem below_leaf (wf : t.WellFormed) (hl : (t.node n).isLeaf = true) {below : List NodeIndex}
    (hm : t.path m = below ++ t.path n) : below = [] := by
  rcases List.eq_nil_or_concat' below with rfl | ⟨below, b, rfl⟩
  case inl => rfl
  case inr =>
    rw [List.append_assoc] at hm
    have hb := wf.child_of_path_append hm
    rcases wf.kind_of_children hb with hkind | hkind
    · simp [Node.isLeaf, hkind] at hl
    · simp [Node.isLeaf, hkind] at hl

section Legal

variable (wf : t.WellFormed) (hc : c.Legal t)
include wf hc

theorem activeChildren_compound (hkind : (t.node n).kind = .compound) (hm : m ∈ t.children n)
    (hmc : m ∈ c) : (t.children n).filter c.contains = [m] := by
  have hnodup : ((t.children n).filter c.contains).Nodup :=
    (wf.increasing.imp fun h => h.ne).filter _
  refine List.perm_singleton.mp
    ((List.perm_ext_iff_of_nodup hnodup (List.nodup_singleton m)).mpr fun k => ?_)
  rw [List.mem_filter, SortedSet.contains_iff, List.mem_singleton]
  exact ⟨fun h => hc.child_unique wf hkind h.left h.right hm hmc, fun h => h ▸ ⟨hm, hmc⟩⟩

-- Of the children of a compound node it shows the active one, with what is below unless that is a
-- leaf.
theorem matchesKeys_compound (hk : t.Keyed) (hn : n ∈ c) (hkind : (t.node n).kind = .compound)
    (hm : m ∈ t.children n) :
    (under t c (depth + 1) n).matchesKeys ((t.node m).key :: below) = true ↔ m ∈ c ∧
      if (t.node m).isLeaf then below = [] else (under t c depth m).matchesKeys below = true := by
  obtain ⟨a, ha, hac⟩ := hc.exists_active_child wf hn hm
  have hkey : (t.node a).key = (t.node m).key ↔ a = m := ⟨hk.distinct ha hm, fun h => h ▸ rfl⟩
  have hmem : m ∈ c ↔ a = m :=
    ⟨fun hmc => hc.child_unique wf hkind ha hac hm hmc, fun h => h ▸ hac⟩
  simp only [under, hkind, activeChildren_compound wf hc hkind ha hac, hmem]
  by_cases hl : (t.node a).isLeaf = true
  case pos =>
    simp only [hl, ↓reduceIte, matchesKeys_leaf, hkey]
    exact and_congr_right fun h => by simp [← h, hl]
  case neg =>
    simp only [hl, Bool.false_eq_true, ↓reduceIte, matchesKeys_branch, List.mem_singleton,
      exists_eq_left, hkey]
    exact and_congr_right fun h => by simp [← h, hl]

-- By induction on how far down the view may go. `below` leads from the active node `n` to `m`.
theorem matchesKeys_under (hk : t.Keyed) (hn : n ∈ c) (hs : n < t.size)
    (hd : t.height ≤ (t.node n).depth + depth) {below : List NodeIndex}
    (hm : t.path m = below ++ t.path n) :
    (under t c depth n).matchesKeys (below.map fun k => (t.node k).key).reverse = true ↔
      m ∈ c := by
  induction depth generalizing n below with
  | zero => exact absurd hd (not_le.mpr (Tree.depth_lt_height hs))
  | succ depth ih =>
    rcases List.eq_nil_or_concat' below with rfl | ⟨below, b, rfl⟩
    case inl =>
      obtain rfl : m = n := (List.cons.inj hm).left
      simpa using hn
    case inr =>
      rw [List.append_assoc] at hm
      have hb := wf.child_of_path_append hm
      have hbm : t.path m = below ++ t.path b := hm.trans (by rw [wf.path_of_append hm]; rfl)
      have hbd : (t.node b).depth = (t.node n).depth + 1 :=
        congrArg List.length (wf.child hb).right
      have hdown : b ∈ c ∧ (under t c depth b).matchesKeys
          (below.map fun k => (t.node k).key).reverse = true ↔ m ∈ c := by
        have hbelow (hbc : b ∈ c) := ih hbc (wf.child hb).left (by omega) hbm
        refine ⟨fun h => (hbelow h.left).mp h.right, fun h => ?_⟩
        have hbc : b ∈ c := hc.mem_of_path wf h (by simp [hbm])
        exact ⟨hbc, (hbelow hbc).mpr h⟩
      rw [List.map_append, List.reverse_append]
      rcases wf.kind_of_children hb with hkind | hkind
      case inl =>
        refine (matchesKeys_compound wf hc hk hn hkind hb).trans ?_
        split
        case isTrue hl =>
          have hnil : below = [] := below_leaf wf hl hbm
          obtain rfl : m = b := by
            rw [hnil] at hbm
            exact (List.cons.inj hbm).left
          simp [hnil]
        case isFalse => exact hdown
      case inr => exact (matchesKeys_parallel hk hkind hb).trans hdown

-- At the path of the root, which is empty, the view shows something as well.
theorem isAt_keyPath (hk : t.Keyed) (hm : m < t.size) :
    (ofConfiguration t c).isAt (t.keyPath m) = true ↔ m ∈ c := by
  obtain ⟨below, hbelow⟩ := wf.exists_path_below_root hm
  rw [isAt, wf.keys_keyPath hk hm, wf.keys_of_path hbelow]
  exact matchesKeys_under wf hc hk hc.root wf.size_pos (Nat.le_add_left _ _) hbelow

end Legal

-- In a legal configuration exactly the active nodes are found at their paths, so that the view
-- tells legal configurations apart.
theorem isAt_iff {machineId : String} {root : Definition.State} (hb : root.build machineId = .ok t)
    (hk : t.Keyed) (hc : c.isLegal t = true) :
    (∀ n < t.size, n ≠ Tree.root →
      ((ofConfiguration t c).isAt (t.keyPath n) = true ↔ n ∈ c)) ∧
    ∀ d : Configuration, d.isLegal t = true → (∀ n ∈ c, n < t.size) → (∀ n ∈ d, n < t.size) →
      ofConfiguration t c = ofConfiguration t d → c = d := by
  have wf := Definition.State.build_wellFormed hb
  have hat (d : Configuration) (hd : d.isLegal t = true) n (hn : n < t.size) :
      (ofConfiguration t d).isAt (t.keyPath n) = true ↔ n ∈ d :=
    isAt_keyPath wf ((Configuration.isLegal_iff wf).mp hd) hk hn
  refine ⟨fun n hn _ => hat c hc n hn, fun d hd hct hdt he => SortedSet.ext fun n => ?_⟩
  by_cases hn : n < t.size
  case pos => rw [← hat c hc n hn, he, hat d hd n hn]
  case neg => exact iff_of_false (fun h => hn (hct n h)) fun h => hn (hdt n h)

theorem player_keyed : playerTree.Keyed where
  nonempty {n} := (by decide +kernel : ∀ n < playerTree.size, n ≠ Tree.root →
    (playerTree.node n).key ≠ "") n
  dotless {n} := (by decide +kernel : ∀ n < playerTree.size, n ≠ Tree.root →
    '.' ∉ (playerTree.node n).key.toList) n
  distinct {n a b} ha hb := (by decide +kernel : ∀ n < playerTree.size,
    ∀ a ∈ playerTree.children n, ∀ b ∈ playerTree.children n,
      (playerTree.node a).key = (playerTree.node b).key → a = b)
    n (Tree.lt_size_of_children ha) a ha b hb

-- The player plays quietly. The picture is seen at its path, unlike the history beside it, and the
-- view is another one when the sound is loud.
theorem isAt_iff_player :
    let c : Configuration := .ofList [0, 2, 4, 5, 7, 9]
    let d : Configuration := .ofList [0, 2, 4, 6, 7, 9]
    c.isLegal playerTree = true ∧ d.isLegal playerTree = true ∧
      playerTree.keyPath 9 = "on.screen.dark" ∧ playerTree.keyPath 8 = "on.screen.seen" ∧
      (ofConfiguration playerTree c).isAt (playerTree.keyPath 9) = true ∧
      (ofConfiguration playerTree c).isAt (playerTree.keyPath 8) ≠ true ∧
      ofConfiguration playerTree c ≠ ofConfiguration playerTree d := by
  intro c d
  have hc : c.isLegal playerTree = true := by decide +kernel
  have hd : d.isLegal playerTree = true := by decide +kernel
  obtain ⟨hat, hinj⟩ := isAt_iff player_build player_keyed hc
  refine ⟨hc, hd, by decide +kernel, by decide +kernel,
    (hat 9 (by decide +kernel) (by decide)).mpr (by decide),
    fun h => absurd ((hat 8 (by decide +kernel) (by decide)).mp h) (by decide), fun h => ?_⟩
  exact absurd (hinj d hd (by decide +kernel) (by decide +kernel) h) (by decide)

end StateValue

end Statechart
