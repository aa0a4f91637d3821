import Statechart.Definition.Build
import Statechart.Proofs.Layout
import Statechart.Proofs.WellFormed

-- A definition without problems becomes a well-formed tree.

namespace Statechart

namespace Definition

namespace Lowered

variable {α β : Type}

@[simp] theorem value_bind (x : Lowered α) (f : α → Lowered β) :
    (x >>= f).value = (f x.value).value := rfl

@[simp] theorem problems_bind (x : Lowered α) (f : α → Lowered β) :
    (x >>= f).problems = x.problems ++ (f x.value).problems := rfl

@[simp] theorem value_pure (a : α) : (pure a : Lowered α).value = a := rfl

@[simp] theorem problems_pure (a : α) : (pure a : Lowered α).problems = [] := rfl

@[simp] theorem value_map (f : α → β) (x : Lowered α) : (f <$> x).value = f x.value := rfl

@[simp] theorem problems_map (f : α → β) (x : Lowered α) : (f <$> x).problems = x.problems :=
  List.append_nil _

@[simp] theorem problems_report (p : Problem) : (report p).problems = [p] := rfl

instance : LawfulMonad Lowered := LawfulMonad.mk' Lowered
  (fun x => by simp [Functor.map, Lowered.bind])
  (fun _ _ => rfl)
  (fun x f g => by simp [bind, Lowered.bind])

@[simp] theorem value_mapM (f : α → Lowered β) (l : List α) :
    (l.mapM f).value = l.map fun a => (f a).value := by
  induction l with
  | nil => rfl
  | cons a rest ih => simp [List.mapM_cons, ih]

@[simp] theorem problems_mapM (f : α → Lowered β) (l : List α) :
    (l.mapM f).problems = l.flatMap fun a => (f a).problems := by
  induction l with
  | nil => rfl
  | cons a rest ih => simp [List.mapM_cons, ih]

end Lowered

theorem splitChars_ne_nil (cs : List Char) : KeyPath.splitChars cs ≠ [] := by
  cases cs with
  | nil => simp [KeyPath.splitChars]
  | cons c rest =>
    rw [KeyPath.splitChars]
    split
    · simp
    · split <;> simp

theorem split_ne_nil (path : String) : KeyPath.split path ≠ [] := by
  simp [KeyPath.split, splitChars_ne_nil]

theorem mapM_id_eq_some {α : Type} {l : List (Option α)} {as : List α} :
    l.mapM id = some as ↔ l = as.map some := by
  induction l generalizing as with
  | nil => cases as <;> simp
  | cons o rest ih =>
    cases o <;> cases as <;> simp [List.mapM_cons, ih, Option.bind_eq_some_iff, and_comm]

namespace Layout

variable {l : Layout} {n m : NodeIndex}

theorem placed_of_size_le (h : l.size ≤ n) : l.placed n = default := by
  simp [placed, Array.getElem?_eq_none h]

theorem lt_size_of_indexOf? {id : String} (h : l.indexOf? id = some m) : m < l.size :=
  have ⟨hm, _⟩ := Array.findIdx?_eq_some_iff_getElem.mp h
  hm

theorem children_of_childWithKey? {key : String} (h : l.childWithKey? n key = some m) :
    m ∈ (l.placed n).children :=
  List.mem_of_find?_eq_some h

namespace InDocumentOrder

variable (ord : l.InDocumentOrder)
include ord

theorem child (h : m ∈ (l.placed n).children) :
    m < l.size ∧ (l.placed m).ancestors = l.path n := by
  by_cases hn : n < l.size
  · exact (ord.children hn).left m h
  · rw [placed_of_size_le (not_lt.mp hn)] at h
    contradiction

theorem descend?_lt {keys : List String} (hk : keys ≠ [])
    (h : keys.foldlM (l.childWithKey? · ·) n = some m) : m < l.size := by
  induction keys generalizing n with
  | nil => contradiction
  | cons key rest ih =>
    simp only [List.foldlM_cons, Option.bind_eq_bind, Option.bind_eq_some_iff] at h
    have ⟨c, hc, hr⟩ := h
    cases rest with
    | nil =>
      have hcm : c = m := by simpa using hr
      exact hcm ▸ (ord.child (children_of_childWithKey? hc)).left
    | cons => exact ih (by simp) hr

theorem target?_lt {target : String} (h : l.target? n target = some m) : m < l.size := by
  simp only [target?] at h
  split at h
  · exact lt_size_of_indexOf? h
  · exact ord.descend?_lt (split_ne_nil _) h
  · exact ord.descend?_lt (split_ne_nil _) h

end InDocumentOrder

theorem value_lowerTarget (target : String) :
    (l.lowerTarget n target).value = l.target? n target := by
  simp only [lowerTarget]
  split <;> simp_all

theorem lowerTransition_eq_some {on : Descriptor} {s : TransitionSpec} {u : Transition}
    (h : (l.lowerTransition n on s).value = some u) : u.source = n ∧ u.on = on ∧
      s.targets.map (l.target? n) = u.targets.map some ∧
      ∃ g, (l.lowerGuard n s.guard).value = some g := by
  simp only [lowerTransition, Lowered.value_bind, Lowered.value_mapM, Lowered.value_pure,
    value_lowerTarget, Option.bind_eq_bind, Option.bind_eq_some_iff, Option.pure_def,
    Option.some.injEq] at h
  have ⟨g, hg, ts, hts, he⟩ := h
  subst he
  exact ⟨rfl, rfl, mapM_id_eq_some.mp hts, g, hg⟩

theorem lowerInitial_compound (h : (l.lowerInitial n).value = some m) : l.kind n = .compound := by
  simp only [lowerInitial] at h
  split at h
  · simp at h
  · simp_all

theorem lowerInitial_sound (hk : l.kind n = .compound) (h : (l.lowerInitial n).problems = []) :
    ∃ i ∈ (l.placed n).children, (∀ k, l.kind i ≠ .history k) ∧
      (l.lowerInitial n).value = some i := by
  simp only [lowerInitial] at h ⊢
  simp only [hk, ne_eq, not_true_eq_false, if_false] at h ⊢
  split at h
  · simp at h
  · split at h
    case h_1 i hi =>
      have ⟨hc, hh⟩ := Option.filter_eq_some_iff.mp hi
      refine ⟨i, children_of_childWithKey? hc, fun k hk => ?_, ?_⟩
      · simp [hk] at hh
      · simp [*]
    · simp at h

variable {machineId : String}

theorem size_lower : (l.lower machineId).value.size = l.size := by
  simp [lower, Tree.size]

theorem lt_size_lower : n < (l.lower machineId).value.size ↔ n < l.size := by
  rw [size_lower]

theorem node_lower (hn : n < l.size) :
    (l.lower machineId).value.node n = (l.lowerNode n).value := by
  simp [lower, Tree.node, List.getElem?_range hn]

theorem node_lower_of_size_le (hn : l.size ≤ n) : (l.lower machineId).value.node n = {} :=
  Tree.node_of_size_le (size_lower.symm ▸ hn)

@[simp] theorem ancestors_lower :
    (l.lower machineId).value.ancestors n = (l.placed n).ancestors := by
  by_cases hn : n < l.size
  · rw [Tree.ancestors, node_lower hn]
    rfl
  · rw [Tree.ancestors, node_lower_of_size_le (not_lt.mp hn), placed_of_size_le (not_lt.mp hn)]
    rfl

@[simp] theorem children_lower :
    (l.lower machineId).value.children n = (l.placed n).children := by
  by_cases hn : n < l.size
  · rw [Tree.children, node_lower hn]
    rfl
  · rw [Tree.children, node_lower_of_size_le (not_lt.mp hn), placed_of_size_le (not_lt.mp hn)]
    rfl

@[simp] theorem path_lower : (l.lower machineId).value.path n = l.path n := by
  rw [Tree.path, ancestors_lower, path]

theorem kind_lower (hn : n < l.size) : ((l.lower machineId).value.node n).kind = l.kind n := by
  rw [node_lower hn]
  rfl

theorem id_lower (hn : n < l.size) : ((l.lower machineId).value.node n).id = l.nodeId n := by
  rw [node_lower hn]
  rfl

theorem eq_of_nodeId (h : l.duplicates = []) (hn : n < l.size) (hm : m < l.size)
    (he : l.nodeId n = l.nodeId m) : n = m := by
  have hi {k : NodeIndex} (hk : k < l.size) : l.indexOf? (l.nodeId k) = some k := by
    simp only [duplicates, List.filterMap_eq_nil_iff, List.mem_range] at h
    simpa using h k hk
  exact Option.some.inj ((hi hn).symm.trans (he ▸ hi hm))

theorem problems_lowerNode (h : (l.lower machineId).problems = []) (hn : n < l.size) :
    (l.lowerNode n).problems = [] := by
  simp only [lower, Lowered.problems_bind, Lowered.problems_mapM, Lowered.problems_pure,
    List.append_nil, List.flatMap_eq_nil_iff, List.mem_range] at h
  exact h n hn

theorem problems_lowerInitial (h : (l.lowerNode n).problems = []) :
    (l.lowerInitial n).problems = [] := by
  simp only [lowerNode, Lowered.problems_bind, List.append_eq_nil_iff] at h
  exact h.left

-- Transitions of a node are what its listeners became, numbered in order.
theorem transitions_lowerNode {k : Nat} {u : Transition}
    (h : (l.lowerNode n).value.transitions[k]? = some u) :
    u.position = k ∧ u.source = n ∧ ∀ m ∈ u.targets, ∃ x, l.target? n x = some m := by
  simp only [lowerNode, Lowered.value_bind, Lowered.value_mapM, Lowered.value_pure,
    List.getElem?_mapIdx, Option.map_eq_some_iff] at h
  have ⟨v, hv, he⟩ := h
  subst he
  have hm := List.mem_of_getElem? hv
  simp only [List.mem_filterMap, List.mem_map, id_eq, exists_eq_right] at hm
  have ⟨_, _, hl⟩ := hm
  have ⟨hs, _, ht, _⟩ := lowerTransition_eq_some hl
  refine ⟨rfl, hs, fun m hm => ?_⟩
  have ⟨x, _, hx⟩ := List.mem_map.mp (ht ▸ List.mem_map_of_mem hm)
  exact ⟨x, hx⟩

end Layout

theorem childrenProblems_childless {t : Tree} {n : Node} (h : childrenProblems t n = [])
    (hk : n.kind = .final ∨ n.isHistory = true) : n.children = [] := by
  by_contra hc
  simp only [childrenProblems, Node.isHistory] at *
  split at h <;> simp_all

theorem childrenProblems_parallel {t : Tree} {n : Node} (h : childrenProblems t n = [])
    (hk : n.kind = .parallel) : ∃ c ∈ n.children, (t.node c).isHistory = false := by
  simp only [childrenProblems, hk] at h
  simpa using h

theorem childrenProblems_final {t : Tree} {n : Node} {p : NodeIndex}
    (h : childrenProblems t n = []) (hk : n.kind = .final) (hp : n.parent = some p) :
    (t.node p).kind ≠ .parallel := by
  intro hpar
  simp only [childrenProblems, hk, hp, Tree.isParallel, hpar, Option.any_some, decide_true,
    if_true] at h
  split at h <;> simp at h

theorem historyProblems_parent {t : Tree} {n : Node} (h : historyProblems t n = [])
    (hk : n.isHistory = true) : n.parent ≠ none := by
  intro hp
  simp [historyProblems, hk, hp] at h

theorem historyProblems_defaults {t : Tree} {n : Node} {p : NodeIndex}
    (h : historyProblems t n = []) (hk : n.isHistory = true) (hp : n.parent = some p) :
    ∀ d ∈ n.defaults, p ∈ t.ancestors d ∧ (t.node d).isHistory = false := by
  simp only [historyProblems, hk, hp, if_true, List.filterMap_eq_nil_iff] at h
  intro d hd
  simpa using h d hd

theorem structureProblems_node {t : Tree} {n : NodeIndex} (h : structureProblems t = [])
    (hn : n < t.size) : childrenProblems t (t.node n) = [] ∧ historyProblems t (t.node n) = [] ∧
      ∀ u ∈ (t.node n).transitions, allOrthogonal t u.targets = true := by
  have hm : t.node n ∈ t.nodes.toList := by
    simpa [Tree.node, Array.getElem?_eq_getElem hn] using Array.getElem_mem hn
  simp only [structureProblems, List.flatMap_eq_nil_iff] at h
  have h := h _ hm
  simp only [List.append_eq_nil_iff, List.flatMap_eq_nil_iff, targetProblems] at h
  refine ⟨h.left.left, h.left.right, fun u hu => ?_⟩
  simpa using h.right u hu

namespace Layout

variable {l : Layout} {machineId : String}

-- A layout in document order that is lowered without a problem and has a sound shape.
theorem lower_wellFormed (ord : l.InDocumentOrder) (hl : (l.lower machineId).problems = [])
    (hs : structureProblems (l.lower machineId).value = []) :
    (l.lower machineId).value.WellFormed where
  size_pos := size_lower.symm ▸ ord.size_pos
  root_ancestors := ancestors_lower.trans ord.root_ancestors
  preorder hn := by
    simpa [Follows] using ord.follows (size_lower ▸ hn)
  child hc := by
    simpa [size_lower] using ord.child (children_lower ▸ hc)
  increasing {n} := by
    rw [children_lower]
    by_cases hn : n < l.size
    · exact (ord.children hn).right
    · rw [placed_of_size_le (not_lt.mp hn)]
      exact .nil
  root_not_history := by
    obtain ⟨_, hh, _⟩ := structureProblems_node hs (lt_size_lower.mpr ord.size_pos)
    have hr : ((l.lower machineId).value.node 0).ancestors = [] :=
      ancestors_lower.trans ord.root_ancestors
    by_contra hk
    exact historyProblems_parent hh (Bool.of_not_eq_false hk) (by simp [Node.parent, hr])
  childless {n} hc hp := by
    by_cases ha : ((l.lower machineId).value.node n).kind = .atomic
    case neg =>
      have hn := Tree.lt_size_of_kind ha
      apply childrenProblems_childless (structureProblems_node hs hn).left
      simp only [Node.isHistory]
      cases hk : ((l.lower machineId).value.node n).kind <;> simp_all
    case pos =>
      by_cases hn : n < l.size
      · have hk := kind_lower hn ▸ ha
        have : (l.placed n).children = [] := by
          simp only [kind] at hk
          split at hk <;> simp_all
        rw [children_lower, this]
      · simp [Tree.children, node_lower_of_size_le (not_lt.mp hn)]
  initial {n} hk := by
    have hn : n < l.size := lt_size_lower.mp (Tree.lt_size_of_kind (by rw [hk]; simp))
    have hp := problems_lowerInitial (problems_lowerNode hl hn)
    obtain ⟨i, hi, hh, he⟩ := lowerInitial_sound (kind_lower hn ▸ hk) hp
    refine ⟨i, Tree.mem_regions.mpr ⟨children_lower ▸ hi, ?_⟩, by rw [node_lower hn]; exact he⟩
    simp only [Node.isHistory]
    rw [kind_lower (ord.child hi).left]
    split
    · exact absurd ‹_› (hh _)
    · rfl
  initial_compound {n i} hi := by
    by_cases hn : n < l.size
    · rw [node_lower hn] at hi
      rw [kind_lower hn]
      exact lowerInitial_compound hi
    · simp [node_lower_of_size_le (not_lt.mp hn)] at hi
  parallel {n} hk := by
    have hn := Tree.lt_size_of_kind (hk.trans_ne (by simp))
    obtain ⟨c, hc⟩ := childrenProblems_parallel (structureProblems_node hs hn).left hk
    exact ⟨c, Tree.mem_regions.mpr hc⟩
  source {n} u hu := by
    by_cases hn : n < l.size
    · obtain ⟨k, hk⟩ := List.getElem?_of_mem (node_lower hn ▸ hu)
      exact (transitions_lowerNode hk).right.left
    · simp [node_lower_of_size_le (not_lt.mp hn)] at hu
  position {n} k u hu := by
    by_cases hn : n < l.size
    · exact (transitions_lowerNode (node_lower hn ▸ hu)).left
    · simp [node_lower_of_size_le (not_lt.mp hn)] at hu
  targets {n} u hu x hx := by
    by_cases hn : n < l.size
    · obtain ⟨k, hk⟩ := List.getElem?_of_mem (node_lower hn ▸ hu)
      obtain ⟨_, ht⟩ := (transitions_lowerNode hk).right.right x hx
      exact size_lower.symm ▸ ord.target?_lt ht
    · simp [node_lower_of_size_le (not_lt.mp hn)] at hu
  orthogonal {n} u hu := by
    by_cases hn : n < l.size
    · exact (structureProblems_node hs (lt_size_lower.mpr hn)).right.right u hu
    · simp [node_lower_of_size_le (not_lt.mp hn)] at hu
  defaults {n p} hh hp := by
    by_cases hn : n < l.size
    · obtain ⟨_, hd, _⟩ := structureProblems_node hs (lt_size_lower.mpr hn)
      exact historyProblems_defaults hd hh hp
    · simp [node_lower_of_size_le (not_lt.mp hn), Node.isHistory] at hh

end Layout

namespace State

variable {machineId : String} {root : State} {t : Tree}

theorem build_eq_ok (h : root.build machineId = .ok t) : root.problems machineId = [] ∧
    t = ((Layout.ofState machineId root).lower machineId).value := by
  cases hp : root.problems machineId with
  | nil =>
    simp only [build, check, hp, List.isEmpty_nil, if_true] at h
    exact ⟨rfl, (Except.ok.inj h).symm⟩
  | cons => simp [build, check, hp, bind, Except.bind] at h

theorem build_of_problems (h : root.problems machineId = []) :
    root.build machineId = .ok ((Layout.ofState machineId root).lower machineId).value := by
  simp [build, check, h]

theorem build_wellFormed (h : root.build machineId = .ok t) : t.WellFormed := by
  have ⟨hp, ht⟩ := build_eq_ok h
  simp only [problems, List.append_eq_nil_iff] at hp
  exact ht ▸ Layout.lower_wellFormed (Layout.ofState_inDocumentOrder machineId root)
    hp.left.right hp.right

variable {n m p : NodeIndex}

-- Only a compound node has final children.
theorem build_compound (h : root.build machineId = .ok t) (hn : n ∈ t.children p)
    (hk : (t.node n).kind = .final) : (t.node p).kind = .compound := by
  have wf := build_wellFormed h
  obtain ⟨hp, rfl⟩ := build_eq_ok h
  simp only [problems, List.append_eq_nil_iff] at hp
  have hs := (structureProblems_node hp.right (wf.child hn).left).left
  exact (wf.kind_of_children hn).resolve_right
    (childrenProblems_final hs hk (wf.parent_of_child hn))

-- No two nodes have the same id.
theorem build_id (h : root.build machineId = .ok t) (hn : n < t.size) (hm : m < t.size)
    (he : (t.node n).id = (t.node m).id) : n = m := by
  obtain ⟨hp, rfl⟩ := build_eq_ok h
  simp only [problems, List.append_eq_nil_iff] at hp
  have hn := Layout.lt_size_lower.mp hn
  have hm := Layout.lt_size_lower.mp hm
  exact Layout.eq_of_nodeId hp.left.left hn hm
    ((Layout.id_lower hn).symm.trans (he.trans (Layout.id_lower hm)))

end State

end Definition

-- A player with sound and a screen. Until the screen has been left for the first time, `PEEK` leads
-- to both of its pictures at once.
def player : Definition.State :=
  .mk { key := "m", initial := some "off" } [
    .mk {
      key := "off"
      transitions := [
        (.event "PLAY", { targets := ["on"] }),
        (.event "PEEK", { targets := ["on.screen.seen"] })] } [],
    .mk {
      key := "on"
      shape := .parallel
      transitions := [(.event "QUIT", { targets := ["off"] })] } [
      .mk { key := "last", shape := .history .deep } [],
      .mk { key := "sound", initial := some "quiet" } [
        .mk { key := "quiet", transitions := [(.event "FLIP", { targets := ["loud"] })] } [],
        .mk { key := "loud" } []],
      .mk { key := "screen", initial := some "dark" } [
        .mk { key := "seen", shape := .history .shallow, targets := ["dark", "bright"] } [],
        .mk {
          key := "dark"
          transitions := [
            (.event "QUIT", { targets := ["#m.off"] }),
            (.event "FLIP", { targets := ["bright"] })] } [],
        .mk { key := "bright" } []]]]

def playerTree : Tree := ((Definition.Layout.ofState "m" player).lower "m").value

theorem player_build : player.build "m" = .ok playerTree :=
  Definition.State.build_of_problems (by decide +kernel)

end Statechart
