import Statechart.Proofs.Lowering
import Statechart.Proofs.Requirements

-- What is reported of the ids in a definition and of the references between its states. Nothing
-- hides these problems.

namespace Statechart.Definition

variable {C S : Type} {r : Registry C S} {l : Layout} {machineId : String} {n : NodeIndex}
  {q q' : Requirement} {p : Problem}

-- From one requirement to all of a stage, by going through the states.
theorem Enumerates.states {R : Requirement → Problem → Prop} {f : NodeIndex → List Problem}
    {stage : Stage} {size : Nat}
    (h : ∀ n < size, Enumerates (f n) (Among (fun q => q.stage = stage ∧ q.node = n) R))
    (hR : ∀ q p, R q p → q.node < size) :
    Enumerates ((List.range size).flatMap f) (Among (·.stage = stage) R) := by
  have hstates : Enumerates ((List.range size).flatMap f)
      (Among (fun q => ∃ n, q.stage = stage ∧ q.node = n) R) := by
    refine .flatMap (fun j n hn => ?_) ?_ ?_
    · obtain ⟨hj, rfl⟩ := List.getElem?_eq_some_iff.mp hn
      simp only [List.length_range, List.getElem_range] at hj ⊢
      exact h j hj
    · rintro i j q ⟨_, rfl⟩ ⟨_, rfl⟩
      rfl
    · rintro j q p ⟨_, rfl⟩ hq
      simpa using hR q p hq
  exact hstates.congr fun q p => by simp [Among]

-- Beyond the states there is nothing that could break a rule.
theorem Breaks.lt_size (h : Breaks l r q p) : q.node < l.size := by
  by_contra hn
  have hplaced := Layout.placed_of_size_le (not_lt.mp hn)
  have hkind : l.kind q.node = .atomic := by
    rw [Layout.kind, hplaced]
    rfl
  have hlisteners : l.listeners q.node = [] := by
    rw [Layout.listeners, hplaced]
    rfl
  have htimers : timers (l.placed q.node).spec = [] := by
    rw [hplaced]
    rfl
  have hlists : (l.placed q.node).spec.targets = [] ∧ (l.placed q.node).spec.entry = [] ∧
      (l.placed q.node).spec.exit = [] ∧ (l.placed q.node).spec.invocations = [] := by
    rw [hplaced]
    exact ⟨rfl, rfl, rfl, rfl⟩
  cases h <;> simp_all [Requirement.node, Layout.IsHistory]

-- A use of an id is the first one if no state before has it.
theorem Layout.indexOf?_nodeId (hn : n < l.size) :
    l.indexOf? (l.nodeId n) = some n ↔ ∀ m < n, l.nodeId m ≠ l.nodeId n := by
  have hplaced {m : Nat} (hm : m < l.size) : l.placed m = l[m] := by
    simp [Layout.placed, Array.getElem?_eq_getElem hm]
  rw [indexOf?, Array.findIdx?_eq_some_iff_getElem]
  constructor
  case mp =>
    rintro ⟨_, _, h⟩ m hm
    simpa [nodeId, hplaced (hm.trans hn), hplaced hn] using h m hm
  case mpr =>
    intro h
    refine ⟨hn, by simp [nodeId, hplaced hn], fun m hm => ?_⟩
    simpa [nodeId, hplaced (hm.trans hn), hplaced hn] using h m hm

theorem Breaks.enumerates (h : Breaks l r q p) : Enumerates [p] (Among (· = q) (Breaks l r)) :=
  .broken h fun _ h' => h'.unique h

theorem enumerates_ids : Enumerates l.duplicates (Among (·.stage = .ids) (Breaks l r)) := by
  rw [Layout.duplicates, List.filterMap_eq_flatMap_toList]
  refine .states (fun n hn => ?_) fun q p h => h.lt_size
  refine Enumerates.scope (A := (· = .ownId n)) ?_ fun q => ?_
  case refine_1 =>
    simp only [Layout.indexOf?_nodeId hn]
    split
    case isTrue h =>
      refine .met fun p hp => ?_
      cases hp with
      | duplicateId hm _ he => exact h _ hm he
    case isFalse h =>
      push Not at h
      obtain ⟨m, hm, he⟩ := h
      exact (Breaks.duplicateId hm hn he).enumerates
  case refine_2 => cases q <;> simp [Requirement.stage, Requirement.node]

variable {on : Descriptor} {u : TransitionSpec} {k : Nat}

theorem Layout.filter_eq_none_iff {o : Option NodeIndex} :
    (o.filter fun c => !(l.kind c matches .history _)) = none ↔
      ∀ c, o = some c → l.IsHistory c := by
  rw [Option.filter_eq_none_iff]
  refine forall₂_congr fun c _ => ?_
  cases hk : l.kind c <;> simp [IsHistory, hk]

theorem enumerates_initial :
    Enumerates (l.lowerInitial n).problems (Among (· = .initial n) (Breaks l r)) := by
  simp only [Layout.lowerInitial]
  split
  case isTrue hk =>
    refine .met fun p h => ?_
    cases h <;> contradiction
  case isFalse hk =>
    have hk := not_not.mp hk
    split
    case h_1 hi => exact (Breaks.missingInitial hk hi).enumerates
    case h_2 key hi =>
      split
      case h_1 c hc =>
        refine .met fun p h => ?_
        cases h with
        | missingInitial _ hi' => simp [hi] at hi'
        | invalidInitial _ hi' hh =>
          cases hi.symm.trans hi'
          cases hc.symm.trans (Layout.filter_eq_none_iff.mpr hh)
      case h_2 hc =>
        exact (Breaks.invalidInitial hk hi (Layout.filter_eq_none_iff.mp hc)).enumerates

theorem enumerates_targets (hk : (l.listeners n)[k]? = some (on, u)) :
    Enumerates (u.targets.flatMap fun x => (l.lowerTarget n x).problems)
      (Among (fun q => ∃ j, q = .target n k j) (Breaks l r)) := by
  refine .each (fun _ _ h => (Requirement.target.inj h).right.right) (fun j p h => ?_)
    fun j x hx => ?_
  case refine_1 =>
    cases h with
    | unresolvedTarget hk' hj =>
      cases hk.symm.trans hk'
      exact (List.getElem?_eq_some_iff.mp hj).1
  case refine_2 =>
    simp only [Layout.lowerTarget]
    split
    case h_1 m hm =>
      refine .met fun p h => ?_
      cases h with
      | unresolvedTarget hk' hj hn =>
        cases hk.symm.trans hk'
        cases hx.symm.trans hj
        cases hm.symm.trans hn
    case h_2 hn => exact (Breaks.unresolvedTarget hk hx hn).enumerates

theorem enumerates_reference (hk : (l.listeners n)[k]? = some (on, u)) :
    Enumerates (l.lowerGuard n u.guard).problems (Among (· = .reference n k) (Breaks l r)) := by
  match hg : u.guard with
  | none | some (.named _) =>
    refine .met fun p h => ?_
    cases h with
    | unresolvedReference hk' hg' =>
      cases hk.symm.trans hk'
      cases hg.symm.trans hg'
  | some (.inState reference) =>
    simp only [Layout.lowerGuard]
    split
    case h_1 m hm =>
      refine .met fun p h => ?_
      cases h with
      | unresolvedReference hk' hg' hn =>
        cases hk.symm.trans hk'
        cases hg.symm.trans hg'
        cases hm.symm.trans hn
    case h_2 hn => exact (Breaks.unresolvedReference hk hg hn).enumerates

theorem enumerates_defaults :
    Enumerates ((l.placed n).spec.targets.flatMap fun x => (l.lowerTarget n x).problems)
      (Among (fun q => ∃ j, q = .default n j) (Breaks l r)) := by
  refine .each (fun _ _ h => (Requirement.default.inj h).right) (fun j p h => ?_)
    fun j x hx => ?_
  case refine_1 =>
    cases h with
    | unresolvedDefault hj => exact (List.getElem?_eq_some_iff.mp hj).1
  case refine_2 =>
    simp only [Layout.lowerTarget]
    split
    case h_1 m hm =>
      refine .met fun p h => ?_
      cases h with
      | unresolvedDefault hj hn =>
        cases hx.symm.trans hj
        cases hm.symm.trans hn
    case h_2 hn => exact (Breaks.unresolvedDefault hx hn).enumerates

theorem enumerates_transition (hk : (l.listeners n)[k]? = some (on, u)) :
    Enumerates (l.lowerTransition n on u).problems
      (Among (fun q => (∃ j, q = .target n k j) ∨ q = .reference n k) (Breaks l r)) := by
  simp only [Layout.lowerTransition, Lowered.problems_bind, Lowered.problems_mapM,
    Lowered.problems_pure, List.append_nil]
  refine (enumerates_targets hk).append (enumerates_reference hk) ?_
  rintro _ ⟨j, rfl⟩ h
  cases h

theorem Breaks.lt_listeners (h : Breaks l r q p)
    (hq : (∃ j, q = .target n k j) ∨ q = .reference n k) : k < (l.listeners n).length := by
  rcases hq with ⟨j, rfl⟩ | rfl
  · cases h with
    | unresolvedTarget hk => exact (List.getElem?_eq_some_iff.mp hk).1
  · cases h with
    | unresolvedReference hk => exact (List.getElem?_eq_some_iff.mp hk).1

theorem enumerates_lowerNode : Enumerates (l.lowerNode n).problems
    (Among (fun q => q.stage = .references ∧ q.node = n) (Breaks l r)) := by
  have htransitions : Enumerates
      ((l.listeners n).flatMap fun x => (l.lowerTransition n x.1 x.2).problems)
      (Among (fun q => ∃ k, (∃ j, q = .target n k j) ∨ q = .reference n k) (Breaks l r)) := by
    refine .flatMap (fun k x hk => enumerates_transition hk) ?_ fun k q p hq h => h.lt_listeners hq
    rintro i k q (⟨j, rfl⟩ | rfl) h
    · simpa using h
    · simpa using h
  simp only [Layout.lowerNode, Lowered.problems_bind, Lowered.problems_mapM, Lowered.problems_pure,
    List.append_nil]
  refine ((enumerates_initial.append (htransitions.append enumerates_defaults ?_) ?_)).scope
    fun q => ?_
  case refine_1 =>
    rintro _ ⟨k, ⟨j, rfl⟩ | rfl⟩ ⟨i, h⟩
    · cases h
    · cases h
  case refine_2 =>
    rintro _ rfl h
    simp at h
  case refine_3 => cases q <;> simp [Requirement.stage, Requirement.node, eq_comm]

theorem enumerates_references (machineId : String) :
    Enumerates (l.lower machineId).problems (Among (·.stage = .references) (Breaks l r)) := by
  simp only [Layout.lower, Lowered.problems_bind, Lowered.problems_mapM, Lowered.problems_pure,
    List.append_nil]
  exact .states (fun n _ => enumerates_lowerNode) fun q p h => h.lt_size

end Statechart.Definition
