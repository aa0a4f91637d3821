import Statechart.Proofs.Completion
import Statechart.Proofs.Settle

-- How completed nodes announce themselves, and when a machine is done.

namespace Statechart

variable {C S : Type} {t : Tree} {r : Registry C S} {c : Configuration} {us : List Transition}
  {m : Microstep C} {machineId : String} {root : Definition.State}

-- What a microstep raises that takes `us` where `c` is active: what its actions raise, after those
-- of each entered node the event of its parent if the node is final, and last the events of the
-- parallel nodes `qs`.
structure Announces (t : Tree) (c : Configuration) (us : List Transition) (m : Microstep C)
    (qs : List NodeIndex) : Prop where
  raised : m.raised =
    m.exited.flatMap (fun n => (t.node n).exit.flatMap Action.raises) ++
    us.flatMap (fun u => u.actions.flatMap Action.raises) ++
    m.entered.flatMap (fun n =>
      (t.node n).entry.flatMap Action.raises ++ (t.doneEvent? n).toList) ++
    qs.map fun q => .doneState (t.node q).id .null
  parent {n : NodeIndex} {e : Event} : t.doneEvent? n = some e ↔
    ∃ p, (t.node n).kind = .final ∧ n ∈ t.children p ∧ p ≠ Tree.root ∧
      (t.node p).kind = .compound ∧ e = .doneState (t.node p).id ((t.node n).data.getD .null)
  entered_once : m.entered.Nodup
  parallel {q : NodeIndex} : q ∈ qs ↔ q ≠ Tree.root ∧ (t.node q).kind = .parallel ∧
    m.configuration.Complete t q ∧ ∃ f ∈ m.entered, t.Reaches f q
  parallel_once : qs.Nodup
  newly_complete {q : NodeIndex} : q ≠ Tree.root → (t.node q).kind = .parallel →
    m.configuration.Complete t q → ¬ c.Complete t q → q ∈ qs
  distinct {p q : NodeIndex} {x y : Json} : p < t.size → q < t.size →
    Event.doneState (t.node p).id x = .doneState (t.node q).id y → p = q

namespace Microstep.Arises

theorem exists_entered (hb : root.build machineId = .ok t) (ha : Arises t r c us m) {q : NodeIndex}
    (hk : (t.node q).kind ≠ .final) (h' : m.configuration.Complete t q) (h : ¬ c.Complete t q) :
    ∃ f ∈ m.entered, t.Reaches f q := by
  have wf := Definition.State.build_wellFormed hb
  obtain ⟨f, hf, hfc, hr⟩ := h'.exists_final hb hk h
  exact ⟨f, (ha.mem_entered wf).mpr ⟨hf, fun hc => absurd hc hfc⟩, hr⟩

-- What a microstep raises: first what its actions and its entered final nodes raise, then the
-- events of the parallel nodes.
theorem raised_eq (ha : Arises t r c us m) : m.raised =
    m.exited.flatMap (fun n => (t.node n).exit.flatMap Action.raises) ++
    us.flatMap (fun u => u.actions.flatMap Action.raises) ++
    m.entered.flatMap (fun n =>
      (t.node n).entry.flatMap Action.raises ++ (t.doneEvent? n).toList) ++
    t.parallelEvents (t.completedParallels m.configuration m.entered) := by
  obtain ⟨e, x, p, q, s, hm⟩ := ha.composed
  have hp := Plan.foldlM_raised (f := Plan.exit r e t) (fun _ _ _ => Plan.exit_raised) hm.exits
  have hq := Plan.foldlM_raised (f := addTransition t r e) (fun _ _ _ => Plan.addAll_raised)
    hm.transitions
  have hs := Plan.foldlM_raised (f := enterNode t r e) (fun _ _ _ => enterNode_raised) hm.entries
  rw [hm.raised, hs, hq, hp]
  simp

-- Whatever a microstep completes announces itself once, and nothing else does.
theorem announces (hb : root.build machineId = .ok t) (ha : Arises t r c us m) :
    ∃ qs, Announces t c us m qs := by
  have wf := Definition.State.build_wellFormed hb
  have hmem {q : NodeIndex} :=
    Tree.mem_completedParallels wf (c := m.configuration) (q := q) m.entered
  refine ⟨(t.completedParallels m.configuration m.entered).filter (· ≠ Tree.root), ?_⟩
  exact {
    raised := ha.raised_eq
    parent := Tree.doneEvent?_eq_some wf
    entered_once := ha.entered_nodup
    parallel := by simp [hmem, and_comm]
    parallel_once := (Tree.completedParallels_nodup _ _ _).filter _
    newly_complete := fun hr hk h' h => List.mem_filter.mpr
      ⟨hmem.mpr ⟨hk, h', ha.exists_entered hb (by simp [hk]) h' h⟩, by simpa using hr⟩
    distinct := fun hp hq he =>
      Definition.State.build_id hb hp hq (by simp_all [Event.doneState]) }

-- Unless it was done before, a machine is done after a microstep exactly if its root is complete.
theorem done_iff (hb : root.build machineId = .ok t) (ha : Arises t r c us m)
    (hk : (t.node Tree.root).kind ≠ .final) (hc : ¬ c.Complete t Tree.root) :
    m.done = true ↔ m.configuration.Complete t Tree.root := by
  have wf := Definition.State.build_wellFormed hb
  obtain ⟨e, x, p, q, s, hm⟩ := ha.composed
  have hmem :=
    Tree.mem_completedParallels wf (c := m.configuration) (q := Tree.root) m.entered
  rw [hm.done, Bool.or_eq_true, List.any_eq_true, List.contains_iff_mem, hmem]
  constructor
  case mp =>
    rintro (⟨n, hn, he⟩ | ⟨_, h, _⟩)
    · obtain ⟨hf, hnr⟩ := (Tree.endsMachine_iff wf).mp he
      have hn := (ha.mem_configuration wf).mpr (.inl hn)
      exact .compound (Definition.State.build_compound hb hnr hf) hnr hf hn
    · exact h
  case mpr =>
    intro h
    obtain ⟨f, hf, hr⟩ := ha.exists_entered hb hk h hc
    have ⟨p, hfk, hfp, _, hpr⟩ := hr
    cases (Relation.reflTransGen_iff_eq_or_transGen.mp hpr)
    case inl he =>
      subst he
      exact .inl ⟨f, hf, (Tree.endsMachine_iff wf).mpr ⟨hfk, hfp⟩⟩
    case inr ht =>
      obtain ⟨_, _, _, hroot⟩ := Relation.TransGen.tail'_iff.mp ht
      exact .inr ⟨hroot, h, f, hf, hr⟩

end Microstep.Arises

-- A machine is done exactly if its root is complete, and only then ends with something.
structure MachineState.Conclusive (t : Tree) (s : MachineState C) : Prop where
  done_iff : s.done = true ↔ s.configuration.Complete t Tree.root
  done_of_data : s.doneData ≠ none → s.done = true

theorem MachineState.Conclusive.after {s : MachineState C} (hb : root.build machineId = .ok t)
    (hk : (t.node Tree.root).kind ≠ .final) (hs : s.Conclusive t) (hd : s.done = false)
    (ha : Microstep.Arises t r s.configuration us m) : (s.after m).Conclusive t where
  done_iff := by
    have hc : ¬ s.configuration.Complete t Tree.root := by simp [← hs.done_iff, hd]
    simpa [MachineState.after, hd] using ha.done_iff hb hk hc
  done_of_data := by
    have hn : s.doneData = none := not_not.mp fun hn => by simp [hs.done_of_data hn] at hd
    simp only [MachineState.after, hn]
    cases m.done <;> simp

namespace Machine

variable {m : Machine C S} {es : List Event} {step : MachineStep C}

-- Whatever events a machine is given, it is done exactly when its root is complete.
theorem play_done_iff (hb : root.build machineId = .ok m.tree)
    (hk : (m.tree.node Tree.root).kind ≠ .final) (h : (m.play es).outcome = .ok step) :
    step.state.done = step.state.configuration.isComplete m.tree Tree.root ∧
      (step.state.done = true ↔ step.state.configuration.Complete m.tree Tree.root) ∧
      (step.state.doneData ≠ none → step.state.done = true) := by
  have wf := Definition.State.build_wellFormed hb
  have hkeeps : Macrostep.Keeps m.tree m.registry noteActions
      fun _ s => s.Conclusive m.tree := {
    accept := fun hs hd ha _ _ => hs.after hb hk hd ha
    refuse := fun _ h => by cases h }
  have hempty : ¬ Configuration.Complete m.tree ∅ Tree.root := fun h =>
    have ⟨_, hn⟩ := h.exists_active wf
    SortedSet.mem_empty hn
  have hs : step.state.Conclusive m.tree ∧ step.state.Steady m.tree := by
    refine play_preserves (I := fun s => s.Conclusive m.tree ∧ s.Steady m.tree) ?_ ?_ h
    case refine_1 =>
      exact ⟨⟨by simp [MachineState.unstarted, hempty], by simp [MachineState.unstarted]⟩,
        .inl rfl, History.empty_within, History.empty_joint⟩
    case refine_2 =>
      intro s trigger p hs hd hst hp
      have hst (he : trigger = .start) : s.configuration = ∅ := hst he ▸ rfl
      exact ⟨Macrostep.run_keeps wf hkeeps hd hs.right.legal hst hs.left hp,
        Macrostep.run_steady wf hs.right hp⟩
  refine ⟨?_, hs.left.done_iff, hs.left.done_of_data⟩
  rw [Bool.eq_iff_iff, hs.left.done_iff, Configuration.isComplete_iff wf]

end Machine

-- A meal of which the soup and the mains are finished apart from each other, the mains only with
-- both the meat and the greens.
def meal : Definition.State :=
  .mk { key := "m", shape := .parallel } [
    .mk { key := "last", shape := .history .deep } [],
    .mk { key := "soup", initial := some "simmering" } [
      .mk {
        key := "simmering"
        transitions := [(.event "BELL", { targets := ["served"] })] } [],
      .mk { key := "served", shape := .final, data := some (.int 1) } []],
    .mk { key := "mains", shape := .parallel } [
      .mk { key := "meat", initial := some "roasting" } [
        .mk {
          key := "roasting"
          transitions := [(.event "BELL", { targets := ["carved"] })] } [],
        .mk { key := "carved", shape := .final } []],
      .mk { key := "greens", initial := some "steaming" } [
        .mk {
          key := "steaming"
          transitions := [(.event "BELL", { targets := ["drained"] })] } [],
        .mk { key := "drained", shape := .final } []]]]

def mealTree : Tree := ((Definition.Layout.ofState "m" meal).lower "m").value

theorem meal_build : meal.build "m" = .ok mealTree :=
  Definition.State.build_of_problems (by decide +kernel)

def mealMachine : Machine Unit Unit := { tree := mealTree, registry := {}, context := () }

-- Everything is being cooked, until the bell finishes it all at once.
def cooking : Configuration := .ofList [0, 2, 3, 5, 6, 7, 9, 10]

def bell : Event := ⟨"BELL", .null⟩

def finishing : List Transition :=
  (mealTree.node 3).transitions ++ (mealTree.node 7).transitions ++ (mealTree.node 10).transitions

theorem announces_meal : ∃ m qs, Announces mealTree cooking finishing (m : Microstep Unit) qs ∧
    m.raised = [.doneState "m.soup" (.int 1), .doneState "m.mains.meat" .null,
      .doneState "m.mains.greens" .null, .doneState "m.mains" .null] := by
  obtain ⟨m, hm, hr⟩ : ∃ m, Microstep.take mealTree ({} : Registry Unit Unit) bell cooking () ∅
      finishing = .ok m ∧ m.raised = [
        .doneState "m.soup" (.int 1), .doneState "m.mains.meat" .null,
        .doneState "m.mains.greens" .null, .doneState "m.mains" .null] :=
    Microstep.exists_eq_ok (by decide +kernel)
  obtain ⟨qs, hqs⟩ := Microstep.Arises.announces meal_build (.take (by decide +kernel) hm)
  exact ⟨m, qs, hqs, hr⟩

theorem meal_play : ∃ step, (mealMachine.play [bell]).outcome = .ok step ∧
    step.state.done = true := by
  obtain ⟨m₀, hreacts, _⟩ : ∃ m, Macrostep.Reacts mealMachine.tree mealMachine.registry
      mealMachine.config (.plain ∅) .start m (.plain cooking) ∧ m.actions = [] :=
    Macrostep.exists_reacts (by decide +kernel)
  have hsel : (Macrostep.selection mealMachine.tree mealMachine.registry mealMachine.config
      (.plain cooking) bell false).result = .ok finishing :=
    Evaluation.eq_ok_of_toOption (by decide +kernel)
  let q : Progress (List Planned) Unit := Macrostep.opening mealMachine.tree mealMachine.registry
    mealMachine.config [] (.plain cooking) bell
  obtain ⟨m, hm, hd⟩ : ∃ m, Macrostep.attempt mealMachine.tree mealMachine.registry q finishing =
      .ok m ∧ m.done = true := Microstep.exists_eq_ok (by decide +kernel)
  have hstarted : Macrostep.Started mealMachine.tree mealMachine.registry mealMachine.config
      Machine.noteActions [] (.plain cooking) (.event bell) (q.accept m.actions m) :=
    .event hsel (by decide +kernel) ⟨hm, rfl⟩
  have hrun := Macrostep.run_of_started hstarted
  rw [Macrostep.loop_of_stops _ (.done (by simp [MachineState.after, hd]))] at hrun
  rw [← List.nil_append [bell], Machine.play_append, Machine.play_nil, Turn.outcome_bind,
    Machine.initialState, Machine.run_outcome]
  change ∃ step, ((Macrostep.run _ _ _ _ _ (.plain ∅) _).outcome.map _).bind _ = _ ∧ _
  rw [Macrostep.run_of_reacts hreacts rfl]
  change ∃ step, (mealMachine.transition (.plain cooking) bell).outcome = _ ∧ _
  rw [Machine.transition_of_running rfl, Machine.run_outcome, hrun]
  exact ⟨_, rfl, by simp [MachineState.after, hd]⟩

theorem play_done_iff_meal : ∃ step, (mealMachine.play [bell]).outcome = .ok step ∧
    step.state.done = true ∧ step.state.configuration.Complete mealTree Tree.root := by
  obtain ⟨step, h, hdone⟩ := meal_play
  have hk : (mealMachine.tree.node Tree.root).kind ≠ .final := by decide +kernel
  have hiff := Machine.play_done_iff (m := mealMachine) meal_build hk h
  exact ⟨step, h, hdone, hiff.right.left.mp hdone⟩

end Statechart
