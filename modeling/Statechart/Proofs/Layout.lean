import Mathlib.Data.List.Basic
import Mathlib.Data.List.Infix
import Mathlib.Order.Basic
import Statechart.Definition.Layout

-- The layout of a definition: states stand in document order, each before its substates, and know
-- their ancestors and children by their places.

namespace Statechart.Definition

mutual

-- `s` takes up the places from `index` on, below `ancestors`.
def State.LaidAt (l : Layout) (ancestors : List NodeIndex) (index : NodeIndex) : State → Prop
  | .mk spec cs =>
    index < l.size ∧ (l.placed index).spec = spec ∧ (l.placed index).ancestors = ancestors ∧
      (l.placed index).children = childIndices (index + 1) cs ∧
      LaidAllAt l (index :: ancestors) (index + 1) cs

def LaidAllAt (l : Layout) (ancestors : List NodeIndex) (index : NodeIndex) : List State → Prop
  | [] => True
  | s :: rest => s.LaidAt l ancestors index ∧ LaidAllAt l ancestors (index + s.size) rest

end

mutual

theorem length_place (path key : String) (ancestors : List NodeIndex) (index : NodeIndex) :
    (s : State) → (place path key ancestors index s).length = s.size
  | .mk _ cs => by
    simp [place, State.size, length_placeAll _ _ _ cs]

theorem length_placeAll (path : String) (ancestors : List NodeIndex) (index : NodeIndex) :
    (cs : List State) → (placeAll path ancestors index cs).length = State.sizeAll cs
  | [] => rfl
  | s :: rest => by
    simp [placeAll, State.sizeAll, length_place _ _ _ _ s, length_placeAll _ _ _ rest]

end

theorem State.size_pos : (s : State) → 0 < s.size
  | .mk _ _ => by simp [State.size]

namespace Layout

variable {l : Layout}

theorem placed_eq {before after : List Placed} {p : Placed}
    (h : l.toList = before ++ p :: after) :
    before.length < l.size ∧ l.placed before.length = p := by
  have hs : l.size = before.length + (after.length + 1) := by
    simpa using congrArg List.length h
  have hp : l[before.length]? = some p := by
    rw [← Array.getElem?_toList, h]
    simp
  exact ⟨by omega, by simp [placed, hp]⟩

mutual

theorem laidAt_place (path key : String) (ancestors : List NodeIndex) (before after : List Placed) :
    (s : State) → l.toList = before ++ place path key ancestors before.length s ++ after →
      s.LaidAt l ancestors before.length
  | .mk spec cs, h => by
    simp only [place, List.append_assoc, List.cons_append] at h
    have ⟨hl, hp⟩ := placed_eq h
    refine ⟨hl, by rw [hp], by rw [hp], by rw [hp], ?_⟩
    have := laidAllAt_placeAll path (before.length :: ancestors)
      (before ++ [l.placed before.length]) after cs
    simp only [List.length_append, List.length_cons, List.length_nil] at this
    exact this (by simp [h, hp])

theorem laidAllAt_placeAll (path : String) (ancestors : List NodeIndex)
    (before after : List Placed) :
    (cs : List State) → l.toList = before ++ placeAll path ancestors before.length cs ++ after →
      LaidAllAt l ancestors before.length cs
  | [], _ => trivial
  | s :: rest, h => by
    simp only [placeAll, List.append_assoc] at h
    refine ⟨laidAt_place _ _ _ _ _ s (by simpa using h), ?_⟩
    have := laidAllAt_placeAll path ancestors
      (before ++ place (path ++ "." ++ s.spec.key) s.spec.key ancestors before.length s) after rest
    simp only [List.length_append, length_place] at this
    exact this (by simp [h])

end

theorem ofState_laidAt (machineId : String) (root : State) :
    root.LaidAt (ofState machineId root) [] 0 :=
  laidAt_place machineId "" [] [] [] root (by simp [ofState])

theorem size_ofState (machineId : String) (root : State) :
    (ofState machineId root).size = root.size := by
  simp [ofState, length_place]

-- What is laid out below `ancestors` keeps them.
mutual

theorem suffix_of_laidAt {ancestors : List NodeIndex} {index n : Nat} :
    (s : State) → s.LaidAt l ancestors index → index ≤ n → n < index + s.size →
      ancestors <:+ (l.placed n).ancestors
  | .mk spec cs, ⟨_, _, ha, _, hc⟩, hn, hs => by
    cases hn.eq_or_lt
    case inl h =>
      subst h
      exact ha ▸ List.suffix_refl _
    case inr hn =>
      have := suffix_of_laidAllAt cs hc hn (by simp only [State.size] at hs; omega)
      exact (List.suffix_cons _ _).trans this

theorem suffix_of_laidAllAt {ancestors : List NodeIndex} {index n : Nat} :
    (cs : List State) → LaidAllAt l ancestors index cs → index ≤ n → n < index + State.sizeAll cs →
      ancestors <:+ (l.placed n).ancestors
  | [], _, hn, hs => by simp only [State.sizeAll] at hs; omega
  | s :: rest, ⟨h, hr⟩, hn, hs => by
    simp only [State.sizeAll] at hs
    cases (lt_or_ge n (index + s.size))
    case inl hlt => exact suffix_of_laidAt s h hn hlt
    case inr hge => exact suffix_of_laidAllAt rest hr hge (by omega)

end

def path (l : Layout) (n : NodeIndex) : List NodeIndex := n :: (l.placed n).ancestors

-- The state after `n` is a child of `n` or of a state above it.
def Follows (l : Layout) (n : NodeIndex) : Prop :=
  ∃ p ∈ l.path n, (l.placed (n + 1)).ancestors = l.path p ∧ n + 1 ∈ (l.placed p).children

mutual

theorem follows_of_laidAt {ancestors : List NodeIndex} {index n : Nat} :
    (s : State) → s.LaidAt l ancestors index → index ≤ n → n + 1 < index + s.size → l.Follows n
  | .mk spec cs, ⟨_, _, ha, hk, hc⟩, hn, hs => by
    have hp : l.path index = index :: ancestors := by rw [path, ha]
    refine follows_of_laidAllAt cs hc hp (hk ▸ List.Subset.refl _) ?_ hn ?_
    · simp [hp]
    · simp only [State.size] at hs
      omega

-- Here `previous` is the state before the first of `cs`, and `q` is their parent.
theorem follows_of_laidAllAt {ancestors : List NodeIndex} {previous q n : Nat} :
    (cs : List State) → LaidAllAt l (q :: ancestors) (previous + 1) cs →
      l.path q = q :: ancestors → childIndices (previous + 1) cs ⊆ (l.placed q).children →
      q ∈ l.path previous → previous ≤ n → n < previous + State.sizeAll cs → l.Follows n
  | [], _, _, _, _, hn, hs => by simp only [State.sizeAll] at hs; omega
  | s :: rest, ⟨h, hr⟩, hq, hk, hp, hn, hs => by
    simp only [State.sizeAll] at hs
    simp only [childIndices, List.cons_subset] at hk
    rw [Nat.add_right_comm] at hr hk
    have hpos := s.size_pos
    rcases hn.eq_or_lt with rfl | hn
    · refine ⟨q, hp, ?_, hk.left⟩
      cases s with
      | mk spec cs => rw [h.right.right.left, hq]
    cases (lt_or_ge n (previous + s.size))
    case inl hlt => exact follows_of_laidAt s h hn (by omega)
    case inr hge =>
      refine follows_of_laidAllAt rest hr hq hk.right ?_ hge (by omega)
      have hl := suffix_of_laidAt s h (n := previous + s.size) (by omega) (by omega)
      exact List.mem_cons_of_mem _ (hl.subset List.mem_cons_self)

end

theorem ancestors_of_childIndices {ancestors : List NodeIndex} {index c : Nat} :
    (cs : List State) → LaidAllAt l ancestors index cs → c ∈ childIndices index cs →
      c < l.size ∧ (l.placed c).ancestors = ancestors
  | s :: rest, ⟨h, hr⟩, hc => by
    cases (List.mem_cons.mp hc)
    case inl he =>
      subst he
      cases s with
      | mk spec cs => exact ⟨h.left, h.right.right.left⟩
    case inr hc => exact ancestors_of_childIndices rest hr hc

theorem le_of_childIndices {next c : Nat} :
    (cs : List State) → c ∈ childIndices next cs → next ≤ c
  | s :: rest, hc => by
    cases (List.mem_cons.mp hc)
    case inl h =>
      subst h
      exact le_rfl
    case inr hc =>
      have := le_of_childIndices rest hc
      omega

theorem increasing_childIndices (next : Nat) :
    (cs : List State) → (childIndices next cs).Pairwise (· < ·)
  | [] => .nil
  | s :: rest => by
    refine List.pairwise_cons.mpr ⟨fun c hc => ?_, increasing_childIndices _ rest⟩
    have := le_of_childIndices rest hc
    have := s.size_pos
    exact Nat.lt_of_lt_of_le (by omega) (le_of_childIndices rest hc)

-- What holds of the children of every state that is laid out.
def ChildrenBelow (l : Layout) (n : NodeIndex) : Prop :=
  (∀ c ∈ (l.placed n).children, c < l.size ∧ (l.placed c).ancestors = l.path n) ∧
    (l.placed n).children.Pairwise (· < ·)

mutual

theorem children_of_laidAt {ancestors : List NodeIndex} {index n : Nat} :
    (s : State) → s.LaidAt l ancestors index → index ≤ n → n < index + s.size → l.ChildrenBelow n
  | .mk spec cs, ⟨_, _, ha, hk, hc⟩, hn, hs => by
    cases hn.eq_or_lt
    case inl h =>
      subst h
      rw [ChildrenBelow, hk, path, ha]
      exact ⟨fun c => ancestors_of_childIndices cs hc, increasing_childIndices _ cs⟩
    case inr hn => exact children_of_laidAllAt cs hc hn (by simp only [State.size] at hs; omega)

theorem children_of_laidAllAt {ancestors : List NodeIndex} {index n : Nat} :
    (cs : List State) → LaidAllAt l ancestors index cs → index ≤ n → n < index + State.sizeAll cs →
      l.ChildrenBelow n
  | [], _, hn, hs => by simp only [State.sizeAll] at hs; omega
  | s :: rest, ⟨h, hr⟩, hn, hs => by
    simp only [State.sizeAll] at hs
    cases (lt_or_ge n (index + s.size))
    case inl hlt => exact children_of_laidAt s h hn hlt
    case inr hge => exact children_of_laidAllAt rest hr hge (by omega)

end

-- The layout of a whole definition.
structure InDocumentOrder (l : Layout) : Prop where
  size_pos : 0 < l.size
  root_ancestors : (l.placed 0).ancestors = []
  follows {n : Nat} : n + 1 < l.size → l.Follows n
  children {n : Nat} : n < l.size → l.ChildrenBelow n

theorem ofState_inDocumentOrder (machineId : String) (root : State) :
    (ofState machineId root).InDocumentOrder where
  size_pos := by simp [size_ofState, root.size_pos]
  root_ancestors := by
    have := ofState_laidAt machineId root
    cases root with
    | mk spec cs => exact this.right.right.left
  follows hn :=
    follows_of_laidAt root (ofState_laidAt machineId root) (Nat.zero_le _)
      (by simpa [size_ofState] using hn)
  children hn :=
    children_of_laidAt root (ofState_laidAt machineId root) (Nat.zero_le _)
      (by simpa [size_ofState] using hn)

end Layout

end Statechart.Definition
