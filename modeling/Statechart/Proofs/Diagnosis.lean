import Statechart.Proofs.Shape

-- What is said to be wrong with a definition that is not accepted: which of the broken rules have
-- an entry of their own in the list of its problems.

namespace Statechart

namespace Definition

variable {C S : Type} {r : Registry C S} {l : Layout} {machineId : String} {n : NodeIndex}
  {q q' : Requirement} {p : Problem}

section Names

variable {v : Node} {a : Action} {on : Descriptor} {u : TransitionSpec} {k : Nat}

theorem enumerates_service {name : String}
    (hq : ∀ p, Breaks l r q p ↔ r.hasService name = false ∧ p = .unknownService v.id name) :
    Enumerates (serviceProblems r v name) (Among (· = q) (Breaks l r)) := by
  rw [serviceProblems]
  split
  case isTrue h =>
    refine .met fun p hp => ?_
    simpa [h] using ((hq p).mp hp).left
  case isFalse h => exact ((hq _).mpr ⟨by simpa using h, rfl⟩).enumerates

theorem enumerates_action (hq : ∀ p, Breaks l r q p ↔ Unregistered r v.id a p) :
    Enumerates (actionProblems r v a) (Among (· = q) (Breaks l r)) := by
  have hmet (h : ∀ p, ¬ Unregistered r v.id a p) : Enumerates [] (Among (· = q) (Breaks l r)) :=
    .met fun p hp => h p ((hq p).mp hp)
  cases a with
  | named name =>
    rw [actionProblems]
    split
    case isTrue h =>
      refine hmet fun p hp => ?_
      cases hp with
      | action hn => simp [h] at hn
    case isFalse h => exact ((hq _).mpr (.action (by simpa using h))).enumerates
  | send s =>
    rw [actionProblems]
    split
    case h_1 name hd =>
      split
      case isTrue h =>
        refine hmet fun p hp => ?_
        cases hp with
        | delay hd' hn =>
          cases hd.symm.trans hd'
          simp [h] at hn
      case isFalse h => exact ((hq _).mpr (.delay hd (by simpa using h))).enumerates
    case h_2 hd =>
      refine hmet fun p hp => ?_
      cases hp with
      | delay hd' => exact hd _ hd'
  | spawn name actor =>
    refine enumerates_service fun p => (hq p).trans ?_
    constructor
    case mp =>
      intro hp
      cases hp with
      | service h => exact ⟨h, rfl⟩
    case mpr =>
      rintro ⟨h, rfl⟩
      exact .service h
  | _ =>
    refine hmet fun p hp => ?_
    cases hp

theorem enumerates_actions {as : List Action} {c : Nat → Requirement} (hc : Function.Injective c)
    (hq : ∀ j p, Breaks l r (c j) p ↔ ∃ a, as[j]? = some a ∧ Unregistered r v.id a p) :
    Enumerates (as.flatMap (actionProblems r v)) (Among (fun q => ∃ j, q = c j) (Breaks l r)) := by
  refine .each hc (fun j p hp => ?_) fun j a ha => enumerates_action fun p => ?_
  · obtain ⟨a, ha, _⟩ := (hq j p).mp hp
    exact (List.getElem?_eq_some_iff.mp ha).1
  · simp [hq, ha]

-- The node of a state that could be lowered.
variable (hv : (l.placed n).spec.Becomes l n v) (hid : v.id = l.nodeId n)
include hv hid

theorem enumerates_entry : Enumerates (v.entry.flatMap (actionProblems r v))
    (Among (fun q => (∃ j, q = .entry n j) ∨ ∃ j, q = .timer n j) (Breaks l r)) := by
  rw [hv.entry, List.flatMap_append]
  refine Enumerates.append ?_ ?_ ?_
  case refine_1 =>
    refine enumerates_actions (fun _ _ h => (Requirement.entry.inj h).right) fun j p => ?_
    rw [hid]
    constructor
    case mp =>
      intro hp
      cases hp with
      | entry ha hp => exact ⟨_, ha, hp⟩
    case mpr => exact fun ⟨a, ha, hp⟩ => .entry ha hp
  case refine_2 =>
    refine enumerates_actions (fun _ _ h => (Requirement.timer.inj h).right) fun j p => ?_
    rw [hid]
    constructor
    case mp =>
      intro hp
      cases hp with
      | timer hd hn => exact ⟨_, by rw [List.getElem?_map, hd]; rfl, .delay rfl hn⟩
    case mpr =>
      rintro ⟨a, ha, hp⟩
      rw [List.getElem?_map, Option.map_eq_some_iff] at ha
      obtain ⟨d, hd, rfl⟩ := ha
      cases hp with
      | delay hs hn =>
        cases hs
        exact .timer hd hn
  case refine_3 =>
    rintro _ ⟨j, rfl⟩ ⟨i, h⟩
    cases h

theorem enumerates_exit : Enumerates (v.exit.flatMap (actionProblems r v))
    (Among (fun q => ∃ j, q = .exit n j) (Breaks l r)) := by
  have hcancels : ((timers (l.placed n).spec).map (timerCancel v.id)).flatMap
      (actionProblems r v) = [] := by
    simp [timerCancel, actionProblems]
  rw [hv.exit, List.flatMap_append, hcancels, List.append_nil]
  refine enumerates_actions (fun _ _ h => (Requirement.exit.inj h).right) fun j p => ?_
  rw [hid]
  constructor
  case mp =>
    intro hp
    cases hp with
    | exit ha hp => exact ⟨_, ha, hp⟩
  case mpr => exact fun ⟨a, ha, hp⟩ => .exit ha hp

theorem listeners_become :
    (l.listeners n).Forall₂ (fun x u => x.2.Becomes l n x.1 u) v.transitions := by
  have := hv.transitions
  rwa [hid] at this

theorem enumerates_transitionActions :
    Enumerates ((v.transitions.flatMap (·.actions)).flatMap (actionProblems r v))
      (Among (fun q => ∃ k j, q = .action n k j) (Breaks l r)) := by
  have hlisteners := listeners_become hv hid
  rw [List.flatMap_assoc]
  refine .flatMap (fun k u hu => ?_) ?_ ?_
  case refine_1 =>
    obtain ⟨x, hk, hx⟩ := getElem?_of_forall₂ hlisteners hu
    refine enumerates_actions (fun _ _ h => (Requirement.action.inj h).right.right) fun j p => ?_
    rw [hid, hx.actions]
    constructor
    case mp =>
      intro hp
      cases hp with
      | action hk' ha hp =>
        cases hk.symm.trans hk'
        exact ⟨_, ha, hp⟩
    case mpr => exact fun ⟨a, ha, hp⟩ => .action hk ha hp
  case refine_2 =>
    rintro i k _ ⟨j, rfl⟩ ⟨_, h⟩
    exact (Requirement.action.inj h).right.left
  case refine_3 =>
    rintro k _ p ⟨j, rfl⟩ hp
    cases hp with
    | action hk => exact hlisteners.length_eq ▸ (List.getElem?_eq_some_iff.mp hk).1

theorem enumerates_guards : Enumerates (v.transitions.flatMap (guardProblems r v))
    (Among (fun q => ∃ k, q = .guard n k) (Breaks l r)) := by
  have hlisteners := listeners_become hv hid
  refine .each (fun _ _ h => (Requirement.guard.inj h).right) (fun k p hp => ?_) fun k u hu => ?_
  case refine_1 =>
    cases hp with
    | guard hk => exact hlisteners.length_eq ▸ (List.getElem?_eq_some_iff.mp hk).1
  case refine_2 =>
    obtain ⟨x, hk, hx⟩ := getElem?_of_forall₂ hlisteners hu
    have hmet (h : ∀ name, x.2.guard = some (.named name) → r.hasGuard name = true) :
        Enumerates [] (Among (· = .guard n k) (Breaks l r)) := by
      refine .met fun p hp => ?_
      cases hp with
      | guard hk' hg hn =>
        cases hk.symm.trans hk'
        simp [h _ hg] at hn
    have hguard := hx.guard
    rw [guardProblems, hid]
    generalize hg : x.2.guard = g at hguard
    generalize u.guard = g' at hguard
    cases hguard with
    | none => exact hmet (by simp [hg])
    | inState => exact hmet (by simp [hg])
    | @named name =>
      dsimp only
      split
      case isTrue h => exact hmet (by simpa [hg] using h)
      case isFalse h => exact (Breaks.guard hk hg (by simpa using h)).enumerates

theorem enumerates_services :
    Enumerates (v.invocations.flatMap fun i => serviceProblems r v i.service)
      (Among (fun q => ∃ k, q = .service n k) (Breaks l r)) := by
  rw [hv.invocations, List.flatMap_map]
  refine .each (fun _ _ h => (Requirement.service.inj h).right) (fun k p hp => ?_) fun k x hx => ?_
  case refine_1 =>
    cases hp with
    | service hi => simpa using (List.getElem?_eq_some_iff.mp hi).1
  case refine_2 =>
    rw [List.getElem?_zipIdx, Option.map_eq_some_iff] at hx
    obtain ⟨i, hi, rfl⟩ := hx
    refine enumerates_service fun p => ?_
    rw [hid]
    constructor
    case mp =>
      intro hp
      cases hp with
      | service hi' hn =>
        cases hi.symm.trans hi'
        exact ⟨hn, rfl⟩
    case mpr =>
      rintro ⟨hn, rfl⟩
      exact .service hi hn

theorem enumerates_node_names : Enumerates (nodeReferenceProblems r v)
    (Among (fun q => q.stage = .names ∧ q.node = n) (Breaks l r)) := by
  rw [nodeReferenceProblems, List.flatMap_append, List.flatMap_append]
  refine (((((enumerates_entry hv hid).append (enumerates_exit hv hid) ?_).append
    (enumerates_transitionActions hv hid) ?_).append (enumerates_guards hv hid) ?_).append
      (enumerates_services hv hid) ?_).scope fun q => ?_
  case refine_5 => cases q <;> simp [Requirement.stage, Requirement.node, eq_comm]
  all_goals
    intro q hq h
    cases q <;> simp at hq h

omit hv hid in
theorem enumerates_names (hl : (l.lower machineId).problems = []) : Enumerates
    (referenceProblems r (l.lower machineId).value) (Among (·.stage = .names) (Breaks l r)) := by
  rw [referenceProblems, Layout.nodes_lower, List.flatMap_map]
  refine .states (fun n hn => ?_) fun q p h => h.lt_size
  exact enumerates_node_names (Layout.lowerNode_becomes (Layout.problems_lowerNode hl hn)) rfl

end Names

-- What hides a broken rule of the tree is itself reported.
theorem Breaks.exists_reported_tree (h : Breaks l r q p) (hq : q.stage ≠ .names) :
    ∃ q p, q.stage ≠ .names ∧ Reported l r q p := by
  by_cases hr : Reported l r q p
  case pos => exact ⟨q, p, hq, hr⟩
  case neg =>
    obtain ⟨q', p', h', hh⟩ : ∃ q' p', Breaks l r q' p' ∧ Hides q' q := by
      simpa [Reported, h] using hr
    cases hh with
    | names _ hn => exact absurd hn hq
    | children | target | reference =>
      exact ⟨_, _, by simp [Requirement.stage], h'.reported⟩

theorem Breaks.exists_reported (h : Breaks l r q p) : ∃ q p, Reported l r q p := by
  by_cases hr : Reported l r q p
  case pos => exact ⟨q, p, hr⟩
  case neg =>
    obtain ⟨q', p', h', hh⟩ : ∃ q' p', Breaks l r q' p' ∧ Hides q' q := by
      simpa [Reported, h] using hr
    have hq' : q'.stage ≠ .names := by cases hh <;> simp_all [Requirement.stage]
    obtain ⟨q, p, _, hr⟩ := h'.exists_reported_tree hq'
    exact ⟨q, p, hr⟩

theorem reported_iff_breaks (hq : q.stage = .ids ∨ q.stage = .references) :
    Breaks l r q p ↔ Reported l r q p := by
  refine ⟨fun h => h.reported ?_, And.left⟩
  rintro q' (⟨_, hn⟩ | _ | _ | _)
  all_goals simp_all [Requirement.stage]

theorem State.enumerates_problems (machineId : String) (root : State) (r : Registry C S) :
    Enumerates (root.problems machineId)
      (Among (·.stage ≠ .names) (Reported (Layout.ofState machineId root) r)) := by
  let l := Layout.ofState machineId root
  have hids : Enumerates l.duplicates (Among (·.stage = .ids) (Reported l r)) :=
    enumerates_ids.congr fun q p => and_congr_right fun hq => reported_iff_breaks (.inl hq)
  have hreferences : Enumerates (l.lower machineId).problems
      (Among (·.stage = .references) (Reported l r)) :=
    (enumerates_references machineId).congr fun q p => and_congr_right fun hq =>
      reported_iff_breaks (.inr hq)
  have hshape : Enumerates (structureProblems (l.lower machineId).value)
      (Among (·.stage = .shape) (Reported l r)) :=
    enumerates_shape machineId (Layout.ofState_inDocumentOrder machineId root)
  refine ((hids.append hreferences ?_).append hshape ?_).scope fun q => ?_
  case refine_3 => cases hq : q.stage <;> simp
  all_goals
    intro q hq h
    simp [h] at hq

end Definition

open Definition

namespace Machine

variable {C S : Type} {r : Registry C S} {x : C} {config : Config} {machineId : String}
  {root : Definition.State} {ps : List Problem}

-- The registry is only asked once the tree is sound.
theorem build_eq : build machineId (some root) r (some x) config =
    let t := ((Layout.ofState machineId root).lower machineId).value
    if root.problems machineId ≠ [] then .error (root.problems machineId)
    else if referenceProblems r t ≠ [] then .error (referenceProblems r t)
    else .ok { tree := t, registry := r, context := x, config := config } := by
  by_cases hp : root.problems machineId = []
  case neg => simp [build, State.build, check, hp, bind, Except.bind]
  case pos =>
    by_cases hr : referenceProblems r ((Layout.ofState machineId root).lower machineId).value = []
    all_goals simp [build, State.build_of_problems hp, ofTree, check, hp, hr, bind, Except.bind,
      pure, Except.pure]

-- What the tree and, once it is sound, the registry have to say.
theorem enumerates_of_unsound (h : root.problems machineId ≠ []) :
    Enumerates (root.problems machineId) (Reported (Layout.ofState machineId root) r) := by
  have htree := State.enumerates_problems machineId root r
  obtain ⟨q', p', hq', hr'⟩ : ∃ q p, q.stage ≠ .names ∧
      Reported (Layout.ofState machineId root) r q p := by
    simpa [Among] using mt htree.eq_nil_iff.mpr h
  refine htree.congr fun q p => and_iff_right_of_imp fun hr hq => ?_
  exact hr.right q' p' hr'.left (.names hq' hq)

theorem enumerates_of_sound (h : root.problems machineId = []) : Enumerates
    (referenceProblems r ((Layout.ofState machineId root).lower machineId).value)
    (Reported (Layout.ofState machineId root) r) := by
  have htree := State.enumerates_problems machineId root r
  have hsound := htree.eq_nil_iff.mp h
  have hbreaks {q p} (h : Breaks (Layout.ofState machineId root) r q p) : q.stage = .names := by
    by_contra hq
    obtain ⟨q, p, hq, hr⟩ := h.exists_reported_tree hq
    exact hsound q p ⟨hq, hr⟩
  simp only [State.problems, List.append_eq_nil_iff] at h
  refine (enumerates_names (r := r) h.left.right).congr fun q p => ?_
  constructor
  case mp =>
    rintro ⟨hq, h⟩
    refine ⟨h, fun q' p' h' hh => ?_⟩
    have hq' := hbreaks h'
    cases hh with
    | names hn => exact hn hq'
    | children | target | reference => cases hq
  case mpr => exact fun h => ⟨hbreaks h.left, h.left⟩

theorem build_cases (machineId : String) (root : Definition.State) (r : Registry C S) (x : C)
    (config : Config) :
    (∃ ps, build machineId (some root) r (some x) config = .error ps ∧ ps ≠ [] ∧
      Enumerates ps (Reported (Layout.ofState machineId root) r)) ∨
    (∃ m, build machineId (some root) r (some x) config = .ok m) ∧
      ∀ q p, ¬ Breaks (Layout.ofState machineId root) r q p := by
  rw [build_eq]
  dsimp only
  split
  case isTrue h => exact .inl ⟨_, rfl, h, enumerates_of_unsound h⟩
  case isFalse hp =>
    have he := enumerates_of_sound (r := r) (not_not.mp hp)
    split
    case isTrue h => exact .inl ⟨_, rfl, h, he⟩
    case isFalse hr =>
      refine .inr ⟨⟨_, rfl⟩, fun q p h => ?_⟩
      obtain ⟨q, p, h⟩ := h.exists_reported
      exact he.eq_nil_iff.mp (not_not.mp hr) q p h

-- A machine is built exactly if no rule is broken, and otherwise each broken rule has an entry of
-- its own unless another one hides it.
theorem build_reports :
    ((∃ m, build machineId (some root) r (some x) config = .ok m) ↔
      ∀ q p, ¬ Breaks (Layout.ofState machineId root) r q p) ∧
    ∀ ps, build machineId (some root) r (some x) config = .error ps →
      Enumerates ps (Reported (Layout.ofState machineId root) r) := by
  rcases build_cases machineId root r x config with ⟨ps, hb, hne, he⟩ | ⟨⟨m, hb⟩, hsound⟩
  case inl =>
    refine ⟨iff_of_false (by simp [hb]) fun hsound => hne ?_, fun ps' hb' => ?_⟩
    · exact he.eq_nil_iff.mpr fun q p h => hsound q p h.left
    · cases hb.symm.trans hb'
      exact he
  case inr =>
    refine ⟨iff_of_true ⟨m, hb⟩ hsound, fun ps hb' => ?_⟩
    cases hb.symm.trans hb'

end Machine

-- A job that does not say where it begins, and what it waits for is not registered.
def draft : Definition.State :=
  .mk { key := "m" } [
    .mk {
      key := "idle"
      transitions := [(.event "GO", { targets := ["idle"], guard := some (.named "ready") })] } []]

theorem draft_build : Machine.build "m" (some draft) ({} : Registry Unit Unit) (some ()) {} =
    .error [.missingInitial "m"] := by
  have hp : draft.problems "m" = [.missingInitial "m"] := by decide +kernel
  rw [Machine.build_eq, hp]
  rfl

theorem Machine.build_reports_draft : Enumerates [.missingInitial "m"]
    (Reported (Layout.ofState "m" draft) ({} : Registry Unit Unit)) :=
  Machine.build_reports.right _ draft_build

-- The guard that is not registered is not reported.
theorem Machine.exists_unreported : ∃ (root : Definition.State) (r : Registry Unit Unit)
    (ps : List Problem) (q : Requirement) (p : Problem),
    build "m" (some root) r (some ()) {} = .error ps ∧ Breaks (Layout.ofState "m" root) r q p ∧
      p ∉ ps := by
  refine ⟨draft, {}, _, .guard 1 0, .unknownGuard "m.idle" "ready", draft_build, ?_, by simp⟩
  have hid : (Layout.ofState "m" draft).nodeId 1 = "m.idle" := by decide +kernel
  have hk : ((Layout.ofState "m" draft).listeners 1)[0]? = some (.parse "GO",
      { targets := ["idle"], guard := some (.named "ready") }) := by decide +kernel
  exact hid ▸ .guard hk rfl rfl

end Statechart
