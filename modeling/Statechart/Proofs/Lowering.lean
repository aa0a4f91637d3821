import Mathlib.Data.List.Forall2
import Statechart.Proofs.Build
import Statechart.Proofs.Orthogonal

-- What becomes of a definition that is accepted: its states are the nodes of the tree, in document
-- order, and each node has all that is written in its state.

namespace Statechart

namespace Definition

namespace State

mutual

-- The states of a definition in document order.
def listed : State → List State
  | .mk spec cs => .mk spec cs :: listedAll cs

def listedAll : List State → List State
  | [] => []
  | s :: rest => s.listed ++ listedAll rest

end

theorem listed_eq (s : State) : s.listed = s :: listedAll s.children := by
  cases s
  rfl

mutual

theorem length_listed : (s : State) → s.listed.length = s.size
  | .mk _ cs => by simp [listed, size, length_listedAll cs]

theorem length_listedAll : (cs : List State) → (listedAll cs).length = sizeAll cs
  | [] => rfl
  | s :: rest => by simp [listedAll, sizeAll, length_listed s, length_listedAll rest]

end

-- A state is followed by all of its substates.
mutual

theorem prefix_of_listed {s' : State} {k : Nat} :
    (s : State) → s.listed[k]? = some s' → s'.listed <+: s.listed.drop k
  | .mk spec cs, h => by
    cases k with
    | zero =>
      obtain rfl : .mk spec cs = s' := by simpa [listed] using h
      exact List.prefix_refl _
    | succ k => exact prefix_of_listedAll cs h

theorem prefix_of_listedAll {s' : State} {k : Nat} :
    (cs : List State) → (listedAll cs)[k]? = some s' → s'.listed <+: (listedAll cs).drop k
  | s :: rest, h => by
    rw [listedAll] at h ⊢
    by_cases hk : k < s.listed.length
    case pos =>
      rw [List.getElem?_append_left hk] at h
      rw [List.drop_append_of_le_length hk.le]
      exact (prefix_of_listed s h).trans (List.prefix_append _ _)
    case neg =>
      have hk := not_lt.mp hk
      rw [List.getElem?_append_right hk] at h
      rw [List.drop_append, List.drop_eq_nil_of_le hk]
      exact prefix_of_listedAll rest h

end

-- Where the substates of a state stand.
theorem map_childIndices {listing : List State} {next : Nat} :
    (cs : List State) → listedAll cs <+: listing.drop next →
      (childIndices next cs).map (listing[·]?) = cs.map some
  | [], _ => rfl
  | s :: rest, h => by
    obtain ⟨later, h⟩ := h
    rw [listedAll, List.append_assoc] at h
    have hs : listing[next]? = some s := by
      have h := congrArg List.head? h
      rw [listed_eq, List.head?_drop] at h
      exact h.symm
    have hrest : listedAll rest <+: listing.drop (next + s.size) := by
      refine ⟨later, ?_⟩
      rw [← List.drop_drop, ← h, ← length_listed, List.drop_left]
    rw [childIndices, List.map_cons, hs, map_childIndices rest hrest]
    rfl

end State

namespace Layout

variable {l : Layout} {n k : Nat} {ancestors : List NodeIndex}

-- Every state is laid out at its place in the listing.
mutual

theorem laidAt_of_listed {s' : State} {index : Nat} {ancestors : List NodeIndex} {k : Nat} :
    (s : State) → s.LaidAt l ancestors index → s.listed[k]? = some s' →
      ∃ ancestors', s'.LaidAt l ancestors' (index + k)
  | .mk spec cs, hl, h => by
    cases k with
    | zero =>
      obtain rfl : .mk spec cs = s' := by simpa [State.listed] using h
      exact ⟨_, hl⟩
    | succ k =>
      rw [Nat.add_comm k, ← Nat.add_assoc]
      exact laidAt_of_listedAll cs hl.right.right.right.right h

theorem laidAt_of_listedAll {s' : State} {index : Nat} {ancestors : List NodeIndex} {k : Nat} :
    (cs : List State) → LaidAllAt l ancestors index cs → (State.listedAll cs)[k]? = some s' →
      ∃ ancestors', s'.LaidAt l ancestors' (index + k)
  | s :: rest, ⟨hl, hr⟩, h => by
    rw [State.listedAll] at h
    by_cases hk : k < s.listed.length
    case pos => exact laidAt_of_listed s hl (List.getElem?_append_left hk ▸ h)
    case neg =>
      rw [List.getElem?_append_right (not_lt.mp hk)] at h
      have := laidAt_of_listedAll rest hr h
      rwa [State.length_listed, Nat.add_assoc, Nat.add_sub_of_le] at this
      exact State.length_listed s ▸ not_lt.mp hk

end

variable {machineId : String}

-- Nothing after its substates lies below a state.
mutual

theorem lt_of_laidAt {index : Nat} {ancestors : List NodeIndex} {k : Nat}
    (wf : (l.lower machineId).value.WellFormed) : (s : State) → s.LaidAt l ancestors index →
      index ∈ (l.lower machineId).value.ancestors k → k < index + s.size
  | .mk spec cs, hl, h => by
    obtain ⟨c, hc, hck⟩ := wf.exists_child_above h
    rw [children_lower, hl.right.right.right.left] at hc
    have := lt_of_laidAllAt wf cs hl.right.right.right.right hc hck
    simp only [State.size]
    omega

theorem lt_of_laidAllAt {index : Nat} {ancestors : List NodeIndex} {c k : Nat}
    (wf : (l.lower machineId).value.WellFormed) : (cs : List State) →
      LaidAllAt l ancestors index cs → c ∈ childIndices index cs →
      c ∈ (l.lower machineId).value.path k → k < index + State.sizeAll cs
  | s :: rest, ⟨hl, hr⟩, hc, hk => by
    have hpos := s.size_pos
    simp only [State.sizeAll]
    cases (List.mem_cons.mp hc)
    case inl h =>
      subst h
      cases (Tree.mem_path.mp hk)
      case inl h =>
        subst h
        omega
      case inr h =>
        have := lt_of_laidAt wf s hl h
        omega
    case inr hc =>
      have := lt_of_laidAllAt wf rest hr hc hk
      omega

end

-- The substates of a state take up the places right after it.
theorem mem_ancestors_of_laidAt {s : State} (wf : (l.lower machineId).value.WellFormed)
    (hl : s.LaidAt l ancestors n) :
    n ∈ (l.lower machineId).value.ancestors k ↔ n < k ∧ k < n + s.size := by
  constructor
  case mp => exact fun h => ⟨wf.ancestors_lt h, lt_of_laidAt wf s hl h⟩
  case mpr =>
    intro ⟨hn, hk⟩
    cases s with
    | mk spec cs =>
      rw [ancestors_lower]
      simp only [State.size] at hk
      exact (suffix_of_laidAllAt cs hl.right.right.right.right hn (by omega)).subset
        List.mem_cons_self

end Layout

-- What a reference to another state becomes.
inductive GuardSpec.Becomes (l : Layout) : Option GuardSpec → Option Guard → Prop
  | none : Becomes l .none .none
  | named {name : String} : Becomes l (some (.named name)) (some (.named name))
  | inState {reference : String} {m : NodeIndex} : l.reference? reference = some m →
      Becomes l (some (.inState reference)) (some (.active m))

-- A transition of node `n` does all that is written, on `on`.
structure TransitionSpec.Becomes (l : Layout) (n : NodeIndex) (on : Descriptor)
    (s : TransitionSpec) (u : Transition) : Prop where
  on : u.on = on
  guard : GuardSpec.Becomes l s.guard u.guard
  actions : u.actions = s.actions
  targets : s.targets.Forall₂ (fun x m => l.target? n x = some m) u.targets
  isInternal : u.isInternal = s.resolvedInternal

-- What is lowered without problems is kept, in the same order.
theorem Lowered.mapM_ok {α β : Type} {f : α → Lowered (Option β)} {R : α → β → Prop} {as : List α}
    (hf : ∀ a, (f a).problems = [] → ∃ b, (f a).value = some b ∧ R a b)
    (h : (as.mapM f).problems = []) :
    ∃ bs, (as.mapM f).value = bs.map some ∧ as.Forall₂ R bs := by
  rw [Lowered.problems_mapM, List.flatMap_eq_nil_iff] at h
  rw [Lowered.value_mapM]
  induction as with
  | nil => exact ⟨[], rfl, .nil⟩
  | cons a rest ih =>
    obtain ⟨bs, hbs, hall⟩ := ih fun x hx => h x (List.mem_cons_of_mem _ hx)
    obtain ⟨b, hb, hr⟩ := hf a (h a List.mem_cons_self)
    exact ⟨b :: bs, by rw [List.map_cons, hb, hbs]; rfl, .cons hr hall⟩

namespace Layout

variable {l : Layout} {n m : NodeIndex} {machineId : String}

theorem reference?_lt {reference : String} (h : l.reference? reference = some m) : m < l.size := by
  simp only [reference?] at h
  split at h <;> exact lt_size_of_indexOf? h

theorem lowerTarget_ok {target : String} (h : (l.lowerTarget n target).problems = []) :
    ∃ m, (l.lowerTarget n target).value = some m ∧ l.target? n target = some m := by
  rw [value_lowerTarget]
  simp only [lowerTarget] at h
  split at h
  case h_1 m hm => exact ⟨m, hm, hm⟩
  case h_2 => simp at h

theorem lowerGuard_ok {g : Option GuardSpec} (h : (l.lowerGuard n g).problems = []) :
    ∃ g', (l.lowerGuard n g).value = some g' ∧ GuardSpec.Becomes l g g' := by
  match g with
  | none => exact ⟨_, rfl, .none⟩
  | some (.named name) => exact ⟨_, rfl, .named⟩
  | some (.inState reference) =>
    simp only [lowerGuard] at h ⊢
    split at h
    case h_1 m hm => exact ⟨some (.active m), by simp, .inState hm⟩
    case h_2 => simp at h

theorem lowerTransition_ok {on : Descriptor} {s : TransitionSpec}
    (h : (l.lowerTransition n on s).problems = []) :
    ∃ u, (l.lowerTransition n on s).value = some u ∧ s.Becomes l n on u := by
  simp only [lowerTransition, Lowered.problems_bind, Lowered.problems_pure,
    List.append_eq_nil_iff] at h
  obtain ⟨ms, hms, htargets⟩ := Lowered.mapM_ok (fun _ => lowerTarget_ok) h.left
  obtain ⟨g, hg, hguard⟩ := lowerGuard_ok h.right.left
  refine ⟨{
    source := n
    position := 0
    on := on
    guard := g
    actions := s.actions
    targets := ms
    isInternal := s.resolvedInternal }, ?_, ⟨rfl, hguard, rfl, htargets, rfl⟩⟩
  simp only [lowerTransition, Lowered.value_bind, Lowered.value_pure, hms, hg]
  rw [mapM_id_eq_some.mpr rfl]
  rfl

theorem forall₂_mapIdx {α β γ : Type} {R : α → β → Prop} {R' : α → γ → Prop} {f : Nat → β → γ}
    {as : List α} {bs : List β} (h : as.Forall₂ R bs) (hf : ∀ k a b, R a b → R' a (f k b)) :
    as.Forall₂ R' (bs.mapIdx f) := by
  induction h generalizing f with
  | nil => exact .nil
  | cons hab _ ih =>
    rw [List.mapIdx_cons]
    exact .cons (hf 0 _ _ hab) (ih fun k => hf (k + 1))

end Layout

-- What the transitions of a state listen for, when its id is `id`.
def StateSpec.listeners (id : String) (s : StateSpec) : List (Descriptor × TransitionSpec) :=
  s.transitions.map (fun (occasion, u) => (occasion.descriptor id, u)) ++
    (s.invocations.zipIdx.flatMap fun (i, k) => i.outcomes (i.actorId id k))

-- The node `n` has everything that is written in its state.
structure StateSpec.Becomes (l : Layout) (n : NodeIndex) (s : StateSpec) (v : Node) : Prop where
  transitions : (s.listeners v.id).Forall₂ (fun x u => x.2.Becomes l n x.1 u) v.transitions
  entry : v.entry = s.entry ++ (timers s).map (timerSend v.id)
  exit : v.exit = s.exit ++ (timers s).map (timerCancel v.id)
  invocations : v.invocations = s.invocations.zipIdx.map fun (i, k) =>
    { id := i.actorId v.id k, service := i.service, autoForward := i.autoForward }
  defaults : s.targets.Forall₂ (fun x m => l.target? n x = some m) v.defaults
  data : v.data = s.data
  tags : v.tags = s.tags

theorem Layout.lowerNode_becomes {l : Layout} {n : NodeIndex} (h : (l.lowerNode n).problems = []) :
    (l.placed n).spec.Becomes l n (l.lowerNode n).value := by
  simp only [lowerNode, Lowered.problems_bind, List.append_eq_nil_iff] at h
  obtain ⟨us, hus, htransitions⟩ := Lowered.mapM_ok (fun _ => lowerTransition_ok) h.right.left
  obtain ⟨ms, hms, hdefaults⟩ := Lowered.mapM_ok (fun _ => lowerTarget_ok) h.right.right.left
  have hsome {α : Type} (l : List α) : (l.map some).filterMap id = l := by simp
  refine ⟨?_, rfl, rfl, rfl, ?_, rfl, rfl⟩
  · simp only [lowerNode, Lowered.value_bind, Lowered.value_pure, hus, hsome]
    exact forall₂_mapIdx htransitions fun _ _ _ hr =>
      ⟨hr.on, hr.guard, hr.actions, hr.targets, hr.isInternal⟩
  · simp only [lowerNode, Lowered.value_bind, Lowered.value_pure, hms, hsome]
    exact hdefaults

theorem GuardSpec.Becomes.active_lt {l : Layout} {g : Option GuardSpec} {g' : Option Guard}
    {m : NodeIndex} (h : GuardSpec.Becomes l g g') (hg : g' = some (.active m)) : m < l.size := by
  cases h with
  | none => simp at hg
  | named => simp at hg
  | inState hm =>
    obtain rfl : _ = m := by simpa using hg
    exact Layout.reference?_lt hm

theorem getElem?_of_forall₂ {α β : Type} {R : α → β → Prop} {as : List α} {bs : List β} {b : β}
    {k : Nat} (h : as.Forall₂ R bs) (hb : bs[k]? = some b) : ∃ a, as[k]? = some a ∧ R a b := by
  induction h generalizing k with
  | nil => simp at hb
  | cons hab _ ih =>
    cases k with
    | zero =>
      cases hb
      exact ⟨_, rfl, hab⟩
    | succ k => exact ih hb

theorem exists_of_forall₂ {α β : Type} {R : α → β → Prop} {as : List α} {bs : List β} {b : β}
    (h : as.Forall₂ R bs) (hb : b ∈ bs) : ∃ a ∈ as, R a b := by
  obtain ⟨k, hk⟩ := List.getElem?_of_mem hb
  obtain ⟨a, ha, hr⟩ := getElem?_of_forall₂ h hk
  exact ⟨a, List.mem_of_getElem? ha, hr⟩

namespace Layout

variable {l : Layout} {n m : NodeIndex} {machineId : String}

-- Looking for an id leads back to the state that has it.
theorem indexOf?_lower (h : l.duplicates = []) {id : String} :
    (l.lower machineId).value.indexOf? id = some n ↔
      n < l.size ∧ ((l.lower machineId).value.node n).id = id := by
  rw [show l.size = (l.lower machineId).value.size from size_lower.symm]
  constructor
  case mp =>
    intro hi
    obtain ⟨hn, he, _⟩ := Array.findIdx?_eq_some_iff_getElem.mp hi
    exact ⟨hn, by simpa [Tree.node, hn] using he⟩
  case mpr =>
    rintro ⟨hn, he⟩
    cases hi : (l.lower machineId).value.indexOf? id with
    | none =>
      have := Array.findIdx?_eq_none_iff.mp hi _ (Array.getElem_mem hn)
      simp [Tree.node, Array.getElem?_eq_getElem hn] at he
      simp [he] at this
    | some m =>
      obtain ⟨hm, hem, _⟩ := Array.findIdx?_eq_some_iff_getElem.mp hi
      have hem : ((l.lower machineId).value.node m).id = id := by simpa [Tree.node, hm] using hem
      rw [eq_of_nodeId h (lt_size_lower.mp hm) (lt_size_lower.mp hn)]
      rw [← id_lower (lt_size_lower.mp hm), ← id_lower (lt_size_lower.mp hn), hem, he]

end Layout

-- The tree has the states of the definition as its nodes, numbered in document order, with their
-- relations to each other and with everything that is written in them.
structure State.Becomes (root : State) (machineId : String) (t : Tree) : Prop where
  named : t.machineId = machineId
  size : t.size = root.listed.length
  written {n : NodeIndex} {s : State} : root.listed[n]? = some s →
    s.spec.Becomes (Layout.ofState machineId root) n (t.node n)
  children {n : NodeIndex} {s : State} : root.listed[n]? = some s →
    (t.children n).map (root.listed[·]?) = s.children.map some
  increasing {n} : (t.children n).Pairwise (· < ·)
  -- The descendants of a node are the range of indices that follows it.
  descendants {n k : NodeIndex} {s : State} : root.listed[n]? = some s →
    (t.isDescendant k n = true ↔ n < k ∧ k < n + s.size)
  parent {n p} : (t.node n).parent = some p ↔ n ∈ t.children p
  parent_lt {n p} : (t.node n).parent = some p → p < n
  orphan {n} : n < t.size → ((t.node n).parent = none ↔ n = Tree.root)
  depth_root : (t.node Tree.root).depth = 0
  depth {n p} : (t.node n).parent = some p → (t.node n).depth = (t.node p).depth + 1
  distinct {n m} : n < t.size → m < t.size → (t.node n).id = (t.node m).id → n = m
  indexOf {id n} : t.indexOf? id = some n ↔ n < t.size ∧ (t.node n).id = id
  compound {n} : (t.node n).kind = .compound →
    ∃ i ∈ t.children n, (t.node i).isHistory = false ∧ (t.node n).initial = some i
  parallel {n} : (t.node n).kind = .parallel →
    (∃ c ∈ t.children n, (t.node c).isHistory = false) ∧
      ∀ c ∈ t.children n, (t.node c).kind ≠ .final
  childless {n} : (t.node n).isLeaf = true ∨ (t.node n).isHistory = true → t.children n = []
  root_not_history : (t.node Tree.root).isHistory = false
  source {n} : ∀ u ∈ (t.node n).transitions, u.source = n
  targets {n} : ∀ u ∈ (t.node n).transitions, ∀ x ∈ u.targets, x < t.size
  orthogonal {n} : ∀ u ∈ (t.node n).transitions, u.targets.Pairwise t.Apart
  references {n m} : ∀ u ∈ (t.node n).transitions, u.guard = some (.active m) → m < t.size
  defaults {n} : ∀ d ∈ (t.node n).defaults, d < t.size
  history {n p} : (t.node n).isHistory = true → (t.node n).parent = some p →
    ∀ d ∈ (t.node n).defaults, t.isDescendant d p = true ∧ (t.node d).isHistory = false

end Definition

namespace Definition

namespace State

variable {machineId : String} {root s : State} {t : Tree} {n m p : NodeIndex}

theorem listed_laidAt (machineId : String) (h : root.listed[n]? = some s) :
    ∃ ancestors, s.LaidAt (Layout.ofState machineId root) ancestors n := by
  obtain ⟨ancestors, hl⟩ := Layout.laidAt_of_listed root (Layout.ofState_laidAt machineId root) h
  rw [Nat.zero_add] at hl
  exact ⟨ancestors, hl⟩

theorem spec_listed (machineId : String) (h : root.listed[n]? = some s) :
    ((Layout.ofState machineId root).placed n).spec = s.spec := by
  obtain ⟨ancestors, hl⟩ := listed_laidAt machineId h
  cases s with
  | mk spec cs => exact hl.right.left

theorem children_listed (machineId : String) (h : root.listed[n]? = some s) :
    ((Layout.ofState machineId root).placed n).children.map (root.listed[·]?) =
      s.children.map some := by
  obtain ⟨ancestors, hl⟩ := listed_laidAt machineId h
  obtain ⟨later, hs⟩ := prefix_of_listed root h
  cases s with
  | mk spec cs =>
    rw [hl.right.right.right.left]
    refine map_childIndices cs ⟨later, ?_⟩
    rw [← List.drop_drop, ← hs]
    rfl

theorem build_written (h : root.build machineId = .ok t) (hn : root.listed[n]? = some s) :
    s.spec.Becomes (Layout.ofState machineId root) n (t.node n) := by
  obtain ⟨hp, rfl⟩ := build_eq_ok h
  simp only [problems, List.append_eq_nil_iff] at hp
  obtain ⟨ancestors, hl⟩ := listed_laidAt machineId hn
  cases s with
  | mk spec cs =>
    rw [Layout.node_lower hl.left]
    have := Layout.lowerNode_becomes (Layout.problems_lowerNode hp.left.right hl.left)
    rwa [hl.right.left] at this

theorem build_children (h : root.build machineId = .ok t) (hn : root.listed[n]? = some s) :
    (t.children n).map (root.listed[·]?) = s.children.map some := by
  obtain ⟨_, rfl⟩ := build_eq_ok h
  rw [Layout.children_lower]
  exact children_listed machineId hn

theorem build_descendants (h : root.build machineId = .ok t) (hn : root.listed[n]? = some s) :
    t.isDescendant m n = true ↔ n < m ∧ m < n + s.size := by
  have wf := build_wellFormed h
  obtain ⟨_, rfl⟩ := build_eq_ok h
  obtain ⟨ancestors, hl⟩ := listed_laidAt machineId hn
  rw [Tree.isDescendant_iff]
  exact Layout.mem_ancestors_of_laidAt wf hl

theorem build_indexOf? (h : root.build machineId = .ok t) {id : String} :
    t.indexOf? id = some n ↔ n < t.size ∧ (t.node n).id = id := by
  obtain ⟨hp, rfl⟩ := build_eq_ok h
  simp only [problems, List.append_eq_nil_iff] at hp
  rw [Layout.indexOf?_lower hp.left.left, Layout.lt_size_lower]

theorem build_size (h : root.build machineId = .ok t) : t.size = root.listed.length := by
  obtain ⟨_, rfl⟩ := build_eq_ok h
  rw [Layout.size_lower, Layout.size_ofState, length_listed]

-- Every node is what one of the states has become.
theorem exists_written (h : root.build machineId = .ok t) (hn : n < t.size) :
    ∃ s, root.listed[n]? = some s ∧
      s.spec.Becomes (Layout.ofState machineId root) n (t.node n) := by
  have hs := List.getElem?_eq_getElem (build_size h ▸ hn)
  exact ⟨_, hs, build_written h hs⟩

theorem lt_of_becomes (h : root.build machineId = .ok t)
    (hm : m < (Layout.ofState machineId root).size) : m < t.size := by
  obtain ⟨_, rfl⟩ := build_eq_ok h
  exact Layout.lt_size_lower.mpr hm

theorem build_references (h : root.build machineId = .ok t) {u : Transition}
    (hu : u ∈ (t.node n).transitions) (hg : u.guard = some (.active m)) : m < t.size := by
  have hn : n < t.size := by
    by_contra hn
    simp [Tree.node_of_size_le (not_lt.mp hn)] at hu
  obtain ⟨s, hs, hb⟩ := exists_written h hn
  obtain ⟨x, _, hx⟩ := exists_of_forall₂ hb.transitions hu
  exact lt_of_becomes h (hx.guard.active_lt hg)

theorem build_defaults (h : root.build machineId = .ok t) (hm : m ∈ (t.node n).defaults) :
    m < t.size := by
  have hn : n < t.size := by
    by_contra hn
    simp [Tree.node_of_size_le (not_lt.mp hn)] at hm
  obtain ⟨s, hs, hb⟩ := exists_written h hn
  obtain ⟨x, _, hx⟩ := exists_of_forall₂ hb.defaults hm
  exact lt_of_becomes h ((Layout.ofState_inDocumentOrder machineId root).target?_lt hx)

-- A definition that is accepted becomes its tree.
theorem build_becomes (h : root.build machineId = .ok t) : root.Becomes machineId t := by
  have wf := build_wellFormed h
  exact {
    named := by
      obtain ⟨_, rfl⟩ := build_eq_ok h
      rfl
    size := build_size h
    written := build_written h
    children := build_children h
    increasing := wf.increasing
    descendants := build_descendants h
    parent := wf.parent_eq_some
    parent_lt := fun hp => wf.lt_of_child (wf.parent_eq_some.mp hp)
    orphan := by
      intro n hn
      constructor
      case mp =>
        intro hp
        by_contra hr
        obtain ⟨p, hc⟩ := wf.exists_parent hr hn
        simp [wf.parent_of_child hc] at hp
      case mpr =>
        rintro rfl
        exact congrArg List.head? wf.root_ancestors
    depth_root := congrArg List.length wf.root_ancestors
    depth := fun hp => congrArg List.length (wf.child (wf.parent_eq_some.mp hp)).right
    distinct := build_id h
    indexOf := build_indexOf? h
    compound := by
      intro n hk
      obtain ⟨i, hi, he⟩ := wf.initial hk
      obtain ⟨hc, hh⟩ := Tree.mem_regions.mp hi
      exact ⟨i, hc, hh, he⟩
    parallel := by
      intro n hk
      constructor
      case left =>
        obtain ⟨c, hc⟩ := wf.parallel hk
        exact ⟨c, Tree.mem_regions.mp hc⟩
      case right =>
        intro c hc hf
        simp [build_compound h hc hf] at hk
    childless := by
      intro n hk
      apply wf.childless
      all_goals
        intro hc
        simp [Node.isLeaf, Node.isHistory, hc] at hk
    root_not_history := wf.root_not_history
    source := wf.source
    targets := wf.targets
    orthogonal := fun u hu => Tree.pairwise_apart wf (wf.orthogonal u hu)
    references := fun u hu => build_references h hu
    defaults := fun _ => build_defaults h
    history := by
      intro n p hh hp d hd
      rw [Tree.isDescendant_iff]
      exact wf.defaults hh hp d hd }

end State

end Definition

theorem player_becomes : player.build "m" = .ok playerTree ∧ player.Becomes "m" playerTree :=
  ⟨player_build, Definition.State.build_becomes player_build⟩

end Statechart
