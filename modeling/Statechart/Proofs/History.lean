import Statechart.Proofs.Legal

-- What is recorded on the way out.

namespace Statechart.History

variable {t : Tree} {c : Configuration} {h : History} {kind : HistoryKind}
  {n m k p : NodeIndex}

-- Every record of a history node consists of nodes below its parent.
def Below (t : Tree) (h : History) : Prop :=
  ∀ k p s, (t.node k).isHistory = true → (t.node k).parent = some p → h.find? k = some s →
    ∀ n ∈ s, p ∈ t.ancestors n

-- Every record of a history node consists of nodes below its parent that can be active.
def Within (t : Tree) (h : History) : Prop :=
  ∀ k p s, (t.node k).isHistory = true → (t.node k).parent = some p → h.find? k = some s →
    ∀ n ∈ s, p ∈ t.ancestors n ∧ (t.node n).isHistory = false

-- Every record of a history node consists of nodes that can be active together.
def Joint (t : Tree) (h : History) : Prop :=
  ∀ k p s, (t.node k).isHistory = true → (t.node k).parent = some p → h.find? k = some s →
    t.Compatible { n | n ∈ s }

theorem Within.below (hh : h.Within t) : h.Below t :=
  fun k p s hk hp hs n hn => (hh k p s hk hp hs n hn).left

theorem mem_remembered : n ∈ remembered t c p kind ↔ n ∈ c ∧
    match kind with
    | .shallow => n ∈ t.children p
    | .deep => (t.node n).isLeaf = true ∧ p ∈ t.ancestors n := by
  cases kind <;> simp [remembered, and_comm]

theorem remembered_below (wf : t.WellFormed) (hn : n ∈ remembered t c p kind) :
    p ∈ t.ancestors n := by
  have ⟨_, hn⟩ := mem_remembered.mp hn
  cases kind with
  | shallow => exact wf.mem_ancestors_of_child hn
  | deep => exact hn.right

theorem find?_recordChildren (ns : List NodeIndex) :
    (ns.foldl (recordChild t c p) h).find? k = match (t.node k).kind with
      | .history kind => if k ∈ ns then some (remembered t c p kind) else h.find? k
      | _ => h.find? k := by
  induction ns generalizing h with
  | nil => cases (t.node k).kind <;> simp
  | cons n rest ih =>
    rw [List.foldl_cons, ih]
    by_cases e : k = n
    case pos =>
      subst e
      cases hk : (t.node k).kind <;> simp [recordChild, hk]
    case neg =>
      have hr : (recordChild t c p h n).find? k = h.find? k := by
        simp only [recordChild]
        split <;> simp [e]
      cases (t.node k).kind <;> simp [hr, e]

-- A history node gets a new record exactly when its parent is exited.
theorem find?_recordExit (wf : t.WellFormed) (exited : List NodeIndex)
    (hk : (t.node k).kind = .history kind) (hp : (t.node k).parent = some p) :
    (h.recordExit t c exited).find? k =
      if p ∈ exited then some (remembered t c p kind) else h.find? k := by
  have hm {q} : k ∈ t.children q ↔ p = q :=
    wf.parent_eq_some.symm.trans (by rw [hp, Option.some.injEq])
  induction exited generalizing h with
  | nil => simp [recordExit]
  | cons q rest ih =>
    rw [recordExit, List.foldl_cons, ← recordExit, ih, find?_recordChildren, hk]
    simp only [hm, List.mem_cons]
    by_cases e : p = q
    case pos => simp [e]
    case neg => simp [e]

-- Nothing else gets a record.
theorem find?_recordExit_of_not_history (exited : List NodeIndex)
    (hk : (t.node k).isHistory = false) : (h.recordExit t c exited).find? k = h.find? k := by
  induction exited generalizing h with
  | nil => simp [recordExit]
  | cons q rest ih =>
    rw [recordExit, List.foldl_cons, ← recordExit, ih, find?_recordChildren]
    split
    case h_1 hkind => simp [Node.isHistory, hkind] at hk
    case h_2 => rfl

theorem exists_kind (hk : (t.node k).isHistory = true) :
    ∃ kind, (t.node k).kind = .history kind := by
  simp only [Node.isHistory] at hk
  split at hk
  · exact ⟨_, by assumption⟩
  · contradiction

-- A record is new, or it has been there before.
theorem find?_recordExit_cases (wf : t.WellFormed) {exited : List NodeIndex} {s : NodeSet}
    (hk : (t.node k).isHistory = true) (hp : (t.node k).parent = some p)
    (hs : (h.recordExit t c exited).find? k = some s) :
    (∃ kind, s = remembered t c p kind) ∨ h.find? k = some s := by
  have ⟨kind, hkind⟩ := exists_kind hk
  rw [find?_recordExit wf exited hkind hp] at hs
  split at hs
  case isTrue => exact .inl ⟨kind, (Option.some.inj hs).symm⟩
  case isFalse => exact .inr hs

theorem recordExit_below (wf : t.WellFormed) (hh : h.Below t) (exited : List NodeIndex) :
    (h.recordExit t c exited).Below t := by
  intro k p s hk hp hs n hn
  cases (find?_recordExit_cases wf hk hp hs)
  case inl h =>
    obtain ⟨kind, rfl⟩ := h
    exact remembered_below wf hn
  case inr hs => exact hh k p s hk hp hs n hn

theorem recordExit_within (wf : t.WellFormed) (hc : c.Legal t) (hh : h.Within t)
    (exited : List NodeIndex) : (h.recordExit t c exited).Within t := by
  intro k p s hk hp hs n hn
  cases (find?_recordExit_cases wf hk hp hs)
  case inl h =>
    obtain ⟨kind, rfl⟩ := h
    exact ⟨remembered_below wf hn, hc.not_history (mem_remembered.mp hn).left⟩
  case inr hs => exact hh k p s hk hp hs n hn

theorem recordExit_joint (wf : t.WellFormed) (hc : c.Legal t) (hh : h.Joint t)
    (exited : List NodeIndex) : (h.recordExit t c exited).Joint t := by
  intro k p s hk hp hs
  cases (find?_recordExit_cases wf hk hp hs)
  case inl h =>
    obtain ⟨kind, rfl⟩ := h
    exact hc.compatible wf fun n hn => (mem_remembered.mp hn).left
  case inr hs => exact hh k p s hk hp hs

theorem find?_empty : (∅ : History).find? k = none := by
  simp [SortedMap.find?, EmptyCollection.emptyCollection, SortedMap.empty]

theorem empty_within : (∅ : History).Within t := by
  intro k p s _ _ hs
  simp [find?_empty] at hs

theorem empty_joint : (∅ : History).Joint t := by
  intro k p s _ _ hs
  simp [find?_empty] at hs

end Statechart.History
