import Mathlib.Data.List.Nodup
import Statechart.KeyPath
import Statechart.Proofs.WellFormed

-- Where a node is found from the root: the keys on the way down to it, and how they are written.

namespace Statechart

namespace KeyPath

theorem splitChars_eq_splitOn (cs : List Char) : splitChars cs = cs.splitOn '.' := by
  induction cs with
  | nil => simp [splitChars]
  | cons c rest ih =>
    rw [splitChars, ih, List.splitOn, List.splitOn, List.splitOnP_cons_eq_if_modifyHead]
    by_cases hc : c = '.'
    case pos => simp [hc]
    case neg =>
      cases hs : rest.splitOnP (· == '.') with
      | nil => exact absurd hs (List.splitOnP_ne_nil _ _)
      | cons => simp [hc]

-- Keys without dots are read back from the path that they are written as.
theorem split_intercalate {keys : List String} (hk : keys ≠ []) (hd : ∀ k ∈ keys, '.' ∉ k.toList) :
    split (".".intercalate keys) = keys := by
  rw [split, splitChars_eq_splitOn, String.toList_intercalate]
  change (List.splitOn '.' (['.'].intercalate (keys.map String.toList))).map String.ofList = keys
  rw [List.splitOn_intercalate '.' (List.forall_mem_map.mpr hd) (by simpa using hk), List.map_map]
  simp [Function.comp_def]

theorem keys_intercalate {ks : List String} (hd : ∀ k ∈ ks, '.' ∉ k.toList)
    (hn : ∀ k ∈ ks, k ≠ "") : keys (".".intercalate ks) = ks := by
  by_cases hk : ks = []
  case pos =>
    subst hk
    rfl
  case neg =>
    rw [keys, split_intercalate hk hd]
    exact List.filter_eq_self.mpr (by simpa using hn)

end KeyPath

namespace Tree

-- The keys on the way from the root to `n`; the root's own key is none of them.
def keys (t : Tree) (n : NodeIndex) : List String :=
  ((t.path n).dropLast.map fun m => (t.node m).key).reverse

def keyPath (t : Tree) (n : NodeIndex) : String := ".".intercalate (t.keys n)

-- Keys can stand in paths, and tell the children of a node apart.
structure Keyed (t : Tree) : Prop where
  nonempty {n : NodeIndex} : n < t.size → n ≠ root → (t.node n).key ≠ ""
  dotless {n : NodeIndex} : n < t.size → n ≠ root → '.' ∉ (t.node n).key.toList
  distinct {n a b : NodeIndex} : a ∈ t.children n → b ∈ t.children n →
    (t.node a).key = (t.node b).key → a = b

namespace WellFormed

variable {t : Tree} {a b n : NodeIndex} {l : List NodeIndex}

-- From any node on, the way to the root is that node's own.
theorem path_of_append (wf : t.WellFormed) {before : List NodeIndex}
    (h : t.path n = before ++ a :: l) : t.path a = a :: l := by
  induction before generalizing n with
  | nil =>
    obtain rfl : n = a := (List.cons.inj h).left
    exact h
  | cons m before ih =>
    have hn : t.ancestors n = before ++ a :: l := (List.cons.inj h).right
    obtain ⟨p, hp⟩ := wf.exists_parent_of_ancestor (n := n) (a := a) (by simp [hn])
    exact ih ((wf.child hp).right ▸ hn)

theorem child_of_path_append (wf : t.WellFormed) {before : List NodeIndex}
    (h : t.path n = before ++ b :: t.path a) : b ∈ t.children a := by
  have hb : t.ancestors b = t.path a := (List.cons.inj (wf.path_of_append h)).right
  apply wf.parent_eq_some.mp
  rw [Node.parent, show (t.node b).ancestors = t.path a from hb]
  rfl

theorem exists_path_below_root (wf : t.WellFormed) (hn : n < t.size) :
    ∃ below, t.path n = below ++ t.path root := by
  obtain ⟨below, rest, hbelow⟩ := List.append_of_mem (wf.root_mem_path hn)
  exact ⟨below, hbelow.trans (by rw [wf.path_of_append hbelow])⟩

theorem keys_of_path (wf : t.WellFormed) {below : List NodeIndex}
    (h : t.path n = below ++ t.path root) :
    t.keys n = (below.map fun m => (t.node m).key).reverse := by
  have hroot : t.path root = [root] := by rw [path, wf.root_ancestors]
  rw [keys, h, hroot, List.dropLast_concat]

theorem exists_node_of_key (wf : t.WellFormed) (hn : n < t.size) {key : String}
    (h : key ∈ t.keys n) : ∃ m < t.size, m ≠ root ∧ (t.node m).key = key := by
  obtain ⟨below, hbelow⟩ := wf.exists_path_below_root hn
  rw [wf.keys_of_path hbelow, List.mem_reverse, List.mem_map] at h
  obtain ⟨m, hm, hkey⟩ := h
  have hmn : m ∈ t.path n := hbelow ▸ List.mem_append_left _ hm
  refine ⟨m, (wf.path_le hmn).trans_lt hn, ?_, hkey⟩
  rintro rfl
  exact List.disjoint_of_nodup_append (hbelow ▸ wf.path_nodup n) hm self_mem_path

-- The path of a node is read as the keys that it was written from.
theorem keys_keyPath (wf : t.WellFormed) (hk : t.Keyed) (hn : n < t.size) :
    KeyPath.keys (t.keyPath n) = t.keys n := by
  refine KeyPath.keys_intercalate (fun key h => ?_) fun key h => ?_
  all_goals obtain ⟨m, hm, hroot, rfl⟩ := wf.exists_node_of_key hn h
  · exact hk.dotless hm hroot
  · exact hk.nonempty hm hroot

end WellFormed

end Tree

end Statechart
