import Statechart.Proofs.References

-- What is reported of the shape of a definition.

namespace Statechart.Definition

variable {C S : Type} {r : Registry C S} {l : Layout} {machineId : String} {n : NodeIndex}
  {q q' : Requirement} {p : Problem}

theorem Reported.unique {p' : Problem} (h : Reported l r q p) (h' : Reported l r q p') : p = p' :=
  h.left.unique h'.left

theorem Reported.enumerates (h : Reported l r q p) :
    Enumerates [p] (Among (· = q) (Reported l r)) :=
  .broken h fun _ h' => h'.unique h

-- Only the parent of a final state and the targets of a transition are not always looked at.
theorem Breaks.reported (h : Breaks l r q p)
    (hq : ∀ q', ¬ Hides q' q := by rintro _ (⟨_, h⟩); cases h) : Reported l r q p :=
  ⟨h, fun q' _ _ => hq q'⟩

namespace Layout

theorem node_lower_kind : ((l.lower machineId).value.node n).kind = l.kind n := by
  by_cases hn : n < l.size
  case pos => exact kind_lower hn
  case neg =>
    rw [node_lower_of_size_le (not_lt.mp hn), kind, placed_of_size_le (not_lt.mp hn)]
    rfl

theorem isHistory_lower (machineId : String) :
    ((l.lower machineId).value.node n).isHistory = true ↔ l.IsHistory n := by
  rw [Node.isHistory, node_lower_kind]
  cases hk : l.kind n <;> simp [IsHistory, hk]

theorem orthogonal_lower {a b : NodeIndex} :
    orthogonal (l.lower machineId).value a b = true ↔ l.Orthogonal a b := by
  simp [orthogonal, Orthogonal, Tree.isDescendant, Tree.isParallel, node_lower_kind,
    Option.any_eq_true, and_assoc, List.contains_eq_mem]

end Layout

theorem enumerates_children : Enumerates
    (childrenProblems (l.lower machineId).value (l.lowerNode n).value)
    (Among (fun q => q = .children n ∨ q = .region n) (Reported l r)) := by
  have hnone (h : l.kind n ≠ .final) : Enumerates [] (Among (· = .region n) (Reported l r)) := by
    refine .met fun p hp => ?_
    cases hp.left with
    | finalInParallel hk => exact h hk
  have hkind : (l.lowerNode n).value.kind = l.kind n := rfl
  have hchildren : (l.lowerNode n).value.children = (l.placed n).children := rfl
  have hparent : (l.lowerNode n).value.parent = l.parent? n := rfl
  have hid : (l.lowerNode n).value.id = l.nodeId n := rfl
  simp only [childrenProblems, hkind, hchildren, hparent, hid]
  cases hk : l.kind n with
  | atomic | compound =>
    refine (Enumerates.met fun p hp => ?_).pair (hnone (by simp [hk])) (by simp)
    cases hp.left <;> simp_all [Layout.IsHistory]
  | parallel =>
    have hnone := hnone (by simp [hk])
    dsimp only
    split
    case isTrue h =>
      have hall : ∀ c ∈ (l.placed n).children, l.IsHistory c := by
        simpa [Layout.isHistory_lower] using h
      exact (Breaks.emptyParallel hk hall).reported.enumerates.pair hnone (by simp)
    case isFalse h =>
      refine (Enumerates.met fun p hp => ?_).pair hnone (by simp)
      cases hp.left with
      | emptyParallel _ hall => exact h (by simpa [Layout.isHistory_lower] using hall)
      | finalWithChildren hk' => simp [hk] at hk'
      | historyWithChildren hh => simp [Layout.IsHistory, hk] at hh
  | history kind =>
    have hnone := hnone (by simp [hk])
    dsimp only
    split
    case isTrue h =>
      refine (Enumerates.met fun p hp => ?_).pair hnone (by simp)
      cases hp.left with
      | historyWithChildren _ hc => exact hc (List.isEmpty_iff.mp h)
      | emptyParallel hk' | finalWithChildren hk' => simp [hk] at hk'
    case isFalse h =>
      have hc := mt List.isEmpty_iff.mpr h
      exact (Breaks.historyWithChildren ⟨kind, hk⟩ hc).reported.enumerates.pair hnone (by simp)
  | final =>
    dsimp only
    split
    case isTrue h =>
      have hc : Breaks l r (.children n) (.finalWithChildren (l.nodeId n)) :=
        .finalWithChildren hk (by simpa using h)
      refine hc.reported.enumerates.pair (.met fun p hp => ?_) (by simp)
      exact hp.right _ _ hc .children
    case isFalse h =>
      have hc : (l.placed n).children = [] := by simpa using h
      have hmet : Enumerates [] (Among (· = .children n) (Reported l r)) := by
        refine .met fun p hp => ?_
        cases hp.left <;> simp_all
      split
      case isTrue h =>
        obtain ⟨q, hq, hqk⟩ : ∃ q, l.parent? n = some q ∧ l.kind q = .parallel := by
          simpa [Option.any_eq_true, Tree.isParallel, Layout.node_lower_kind] using h
        have hregion : Reported l r (.region n) (.finalInParallel (l.nodeId n)) := by
          refine ⟨.finalInParallel hk hq hqk, fun _ _ hb hh => ?_⟩
          cases hh with
          | names _ h => cases h
          | children => cases hb <;> simp_all
        exact hmet.pair hregion.enumerates (by simp)
      case isFalse h =>
        refine hmet.pair (Enumerates.met fun p hp => ?_) (by simp)
        cases hp.left with
        | finalInParallel _ hq hqk =>
          simp [hq, Tree.isParallel, Layout.node_lower_kind, hqk] at h

theorem enumerates_inside {a : NodeIndex} (ord : l.InDocumentOrder) (hh : l.IsHistory n)
    (ha : l.parent? n = some a) : Enumerates
    ((l.placed n).spec.targets.filterMap fun x => (l.target? n x).bind fun d =>
      if (l.lower machineId).value.isDescendant d a &&
          !((l.lower machineId).value.node d).isHistory then none
      else some (.invalidHistoryTarget (l.nodeId n) ((l.lower machineId).value.node d).id))
    (Among (fun q => ∃ j, q = .inside n j) (Reported l r)) := by
  rw [List.filterMap_eq_flatMap_toList]
  refine .each (fun _ _ h => (Requirement.inside.inj h).right) (fun j p hp => ?_)
    fun j x hx => ?_
  case refine_1 =>
    cases hp.left with
    | invalidDefault _ _ hj => exact (List.getElem?_eq_some_iff.mp hj).1
  case refine_2 =>
    cases hd : l.target? n x with
    | none =>
      refine .met fun p hp => ?_
      cases hp.left with
      | invalidDefault _ _ hj hd' =>
        cases hx.symm.trans hj
        cases hd.symm.trans hd'
    | some d =>
      have hok : ((l.lower machineId).value.isDescendant d a &&
          !((l.lower machineId).value.node d).isHistory) = true ↔
            ¬ (a ∈ (l.placed d).ancestors → l.IsHistory d) := by
        simp [Tree.isDescendant, ← Layout.isHistory_lower machineId]
      rw [Option.bind_some]
      split
      case isTrue h =>
        refine .met fun p hp => ?_
        cases hp.left with
        | invalidDefault _ ha' hj hd' himplies =>
          cases ha.symm.trans ha'
          cases hx.symm.trans hj
          cases hd.symm.trans hd'
          exact hok.mp h himplies
      case isFalse h =>
        rw [Layout.id_lower (ord.target?_lt hd)]
        have himplies := not_not.mp (mt hok.mpr h)
        exact (Breaks.invalidDefault hh ha hx hd himplies).reported.enumerates

theorem enumerates_history (ord : l.InDocumentOrder) : Enumerates
    (historyProblems (l.lower machineId).value (l.lowerNode n).value)
    (Among (fun q => q = .parent n ∨ ∃ j, q = .inside n j) (Reported l r)) := by
  have hdisj (q : Requirement) (h : q = .parent n) : ¬ ∃ j, q = .inside n j := by simp [h]
  have hdefaults : (l.lowerNode n).value.defaults =
      (l.placed n).spec.targets.filterMap (l.target? n) := by
    simp [Layout.lowerNode, Layout.value_lowerTarget, List.filterMap_map]
  have hhistory : (l.lowerNode n).value.isHistory = true ↔ l.IsHistory n := by
    cases hk : l.kind n <;> simp [Node.isHistory, Layout.lowerNode, Layout.IsHistory, hk]
  have hparent : (l.lowerNode n).value.parent = l.parent? n := rfl
  have hid : (l.lowerNode n).value.id = l.nodeId n := rfl
  simp only [historyProblems, hparent, hdefaults, hid, List.filterMap_filterMap]
  split
  case isFalse h =>
    have hh := mt hhistory.mpr h
    refine .nil fun q p => ?_
    rintro ⟨rfl | ⟨j, rfl⟩, hp⟩
    · cases hp.left with
      | historyAtRoot hh' => exact hh hh'
    · cases hp.left with
      | invalidDefault hh' => exact hh hh'
  case isTrue h =>
    have hh := hhistory.mp h
    split
    case h_1 hp =>
      refine (Breaks.historyAtRoot hh hp).reported.enumerates.append
        (Enumerates.nil fun q p => ?_) hdisj
      rintro ⟨⟨j, rfl⟩, hq⟩
      cases hq.left with
      | invalidDefault _ hp' => cases hp.symm.trans hp'
    case h_2 a ha =>
      refine (Enumerates.met fun p hp => ?_).append (enumerates_inside ord hh ha) hdisj
      cases hp.left with
      | historyAtRoot _ hn => cases ha.symm.trans hn

theorem flatMap_mapIdx {α β : Type} {g : Nat → α → α} {h : α → List β}
    (hg : ∀ k a, h (g k a) = h a) (as : List α) : (as.mapIdx g).flatMap h = as.flatMap h := by
  induction as generalizing g with
  | nil => rfl
  | cons a rest ih =>
    rw [List.mapIdx_cons, List.flatMap_cons, List.flatMap_cons, hg, ih fun k => hg (k + 1)]

variable {on : Descriptor} {s : TransitionSpec} {k : Nat}

-- A transition in which something cannot be resolved is left out.
theorem Breaks.lowerTransition_eq_none (hk : (l.listeners n)[k]? = some (on, s))
    (h : Breaks l r q p) (hq : (∃ j, q = .target n k j) ∨ q = .reference n k) :
    (l.lowerTransition n on s).value = none := by
  cases hu : (l.lowerTransition n on s).value with
  | none => rfl
  | some u =>
    obtain ⟨_, _, htargets, g, hg⟩ := Layout.lowerTransition_eq_some hu
    rcases hq with ⟨j, rfl⟩ | rfl
    · cases h with
      | unresolvedTarget hk' hj hx =>
        cases hk.symm.trans hk'
        have := congrArg (·[j]?) htargets
        simp [hj, hx] at this
    · cases h with
      | unresolvedReference hk' hguard hx =>
        cases hk.symm.trans hk'
        simp [hguard, Layout.lowerGuard, hx] at hg

theorem enumerates_conflict (hk : (l.listeners n)[k]? = some (on, s)) : Enumerates
    ((l.lowerTransition n on s).value.toList.flatMap
      (targetProblems (l.lower machineId).value (l.lowerNode n).value))
    (Among (· = .together n k) (Reported l r)) := by
  by_cases hproblems : ∃ q p, Breaks l r q p ∧ ((∃ j, q = .target n k j) ∨ q = .reference n k)
  case pos =>
    obtain ⟨q, p, hb, hq⟩ := hproblems
    rw [hb.lowerTransition_eq_none hk hq]
    refine .met fun p' hp => hp.right q p hb ?_
    rcases hq with ⟨j, rfl⟩ | rfl
    · exact .target
    · exact .reference
  case neg =>
    have hnone : (l.lowerTransition n on s).problems = [] := by
      refine (enumerates_transition (r := r) hk).eq_nil_iff.mpr fun q p hq => ?_
      exact hproblems ⟨q, p, hq.right, hq.left⟩
    obtain ⟨u, hu, _⟩ := Layout.lowerTransition_ok hnone
    obtain ⟨_, rfl, htargets, _⟩ := Layout.lowerTransition_eq_some hu
    have hat {i : Nat} {a : NodeIndex} :
        u.targets[i]? = some a ↔ ∃ x, s.targets[i]? = some x ∧ l.target? n x = some a := by
      have := congrArg (·[i]?) htargets
      simp only [List.getElem?_map] at this
      cases hx : s.targets[i]? <;> cases ha : u.targets[i]? <;> simp_all
    have hid : (l.lowerNode n).value.id = l.nodeId n := rfl
    rw [hu, Option.toList_some, List.flatMap_singleton, targetProblems, hid]
    split
    case isTrue h =>
      refine .met fun p hp => ?_
      cases hp.left with
      | conflictingTargets hk' hij hx hy ha hb ho =>
        cases hk.symm.trans hk'
        obtain ⟨hi, rfl⟩ := List.getElem?_eq_some_iff.mp (hat.mpr ⟨_, hx, ha⟩)
        obtain ⟨hj, rfl⟩ := List.getElem?_eq_some_iff.mp (hat.mpr ⟨_, hy, hb⟩)
        have hall := List.pairwise_iff_getElem.mp (allOrthogonal_iff.mp h)
        exact ho (Layout.orthogonal_lower.mp (hall _ _ hi hj hij))
    case isFalse h =>
      rw [allOrthogonal_iff, List.pairwise_iff_getElem] at h
      push Not at h
      obtain ⟨i, j, hi, hj, hij, ho⟩ := h
      obtain ⟨x, hx, ha⟩ := hat.mp (List.getElem?_eq_getElem hi)
      obtain ⟨y, hy, hb⟩ := hat.mp (List.getElem?_eq_getElem hj)
      have hconflict : Breaks l r (.together n k)
          (.conflictingTargets (l.nodeId n) u.on.toString) :=
        .conflictingTargets hk hij hx hy ha hb (mt Layout.orthogonal_lower.mpr ho)
      refine Reported.enumerates ⟨hconflict, fun q p hq hh => hproblems ⟨q, p, hq, ?_⟩⟩
      cases hh with
      | names _ h => cases h
      | target => exact .inl ⟨_, rfl⟩
      | reference => exact .inr rfl

theorem enumerates_together : Enumerates
    ((l.lowerNode n).value.transitions.flatMap
      (targetProblems (l.lower machineId).value (l.lowerNode n).value))
    (Among (fun q => ∃ k, q = .together n k) (Reported l r)) := by
  have htransitions : (l.lowerNode n).value.transitions = (((l.listeners n).map
      fun x => (l.lowerTransition n x.1 x.2).value).filterMap id).mapIdx
        fun k u => { u with position := k } := by
    simp [Layout.lowerNode]
  rw [htransitions, flatMap_mapIdx (by exact fun _ _ => rfl), List.filterMap_map, Function.id_comp,
    List.filterMap_eq_flatMap_toList, List.flatMap_assoc]
  refine .each (fun _ _ h => (Requirement.together.inj h).right) (fun k p hp => ?_)
    fun k x hk => enumerates_conflict hk
  cases hp.left with
  | conflictingTargets hk => exact (List.getElem?_eq_some_iff.mp hk).1

theorem Layout.nodes_lower : (l.lower machineId).value.nodes.toList =
    (List.range l.size).map fun n => (l.lowerNode n).value := by
  simp [lower]

theorem enumerates_shape (machineId : String) (ord : l.InDocumentOrder) : Enumerates
    (structureProblems (l.lower machineId).value) (Among (·.stage = .shape) (Reported l r)) := by
  rw [structureProblems, Layout.nodes_lower, List.flatMap_map]
  refine .states (fun n _ => ?_) fun q p h => h.left.lt_size
  refine ((enumerates_children.append (enumerates_history ord) ?_).append enumerates_together
    ?_).scope fun q => ?_
  case refine_1 => rintro _ (rfl | rfl) (h | ⟨j, h⟩) <;> cases h
  case refine_2 => rintro _ ((rfl | rfl) | rfl | ⟨j, rfl⟩) ⟨k, h⟩ <;> cases h
  case refine_3 => cases q <;> simp [Requirement.stage, Requirement.node, eq_comm]

end Statechart.Definition
