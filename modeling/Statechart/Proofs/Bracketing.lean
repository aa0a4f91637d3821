import Statechart.Proofs.Arising
import Statechart.Proofs.Names
import Statechart.Proofs.Settle
import Statechart.Proofs.Simulation

-- Nodes are entered and left along the tree: below an active parent, and above nothing active.

namespace Statechart

inductive Move
  | enter (n : NodeIndex)
  | exit (n : NodeIndex)
  deriving DecidableEq

namespace Move

def node : Move → NodeIndex
  | enter n => n
  | exit n => n

@[simp] theorem node_enter {n : NodeIndex} : (enter n).node = n := rfl

@[simp] theorem node_exit {n : NodeIndex} : (exit n).node = n := rfl

-- A node is only entered while it is inactive and its parent active, and only exited while it is
-- active and no descendant of it is.
def after? (t : Tree) (a : Configuration) : Move → Option Configuration
  | enter n =>
    if !a.contains n && (t.node n).parent.all a.contains then some (a.insert n) else none
  | exit n =>
    if a.contains n && a.toList.all (!t.isDescendant · n) then some (a.filter (· ≠ n)) else none

-- What is active after the moves.
def afterAll? (t : Tree) (a : Configuration) (moves : List Move) : Option Configuration :=
  moves.foldlM (after? t) a

-- Entered and exited in turn, and entered last if it is active.
def alternating (n : NodeIndex) (k : Nat) (active : Bool) : List Move :=
  (List.replicate k [enter n, exit n]).flatten ++ if active then [enter n] else []

variable {t : Tree} {a b c : Configuration} {n k : NodeIndex} {move : Move} {moves rest : List Move}

theorem after?_enter : (enter n).after? t a = some b ↔
    n ∉ a ∧ (∀ p, (t.node n).parent = some p → p ∈ a) ∧ a.insert n = b := by
  have hp : (t.node n).parent.all a.contains = true ↔
      ∀ p, (t.node n).parent = some p → p ∈ a := by
    cases (t.node n).parent <;> simp
  simp only [after?, Option.ite_none_right_eq_some, Option.some.injEq, Bool.and_eq_true, hp,
    Bool.not_eq_true', SortedSet.contains_eq_false_iff, and_assoc]

theorem after?_exit : (exit n).after? t a = some b ↔
    n ∈ a ∧ (∀ k ∈ a, n ∉ t.ancestors k) ∧ a.filter (· ≠ n) = b := by
  simp [after?, Tree.isDescendant, SortedSet.mem_iff, and_assoc]

-- A move only concerns its own node.
theorem contains_of_after? (h : move.after? t a = some b) (hn : move.node ≠ n) :
    b.contains n = a.contains n := by
  rw [Bool.eq_iff_iff, SortedSet.contains_iff, SortedSet.contains_iff]
  cases move with
  | enter m =>
    obtain ⟨_, _, rfl⟩ := after?_enter.mp h
    have hn : n ≠ m := Ne.symm hn
    simp [hn]
  | exit m =>
    obtain ⟨_, _, rfl⟩ := after?_exit.mp h
    have hn : n ≠ m := Ne.symm hn
    simp [hn]

theorem afterAll?_cons : afterAll? t a (move :: rest) = some b ↔
    ∃ a', move.after? t a = some a' ∧ afterAll? t a' rest = some b := by
  simp [afterAll?, Option.bind_eq_some_iff]

theorem afterAll?_append : afterAll? t a (moves ++ rest) = some b ↔
    ∃ a', afterAll? t a moves = some a' ∧ afterAll? t a' rest = some b := by
  simp [afterAll?, Option.bind_eq_some_iff]

-- What moves one node makes between two configurations.
theorem exists_alternating (n : NodeIndex) (h : afterAll? t a moves = some b) :
    ∃ k, (if a.contains n then [enter n] else []) ++ moves.filter (·.node = n) =
      alternating n k (b.contains n) := by
  induction moves generalizing a with
  | nil =>
    obtain rfl : a = b := by simpa [afterAll?] using h
    exact ⟨0, by simp [alternating]⟩
  | cons move rest ih =>
    obtain ⟨a', ha, h⟩ := afterAll?_cons.mp h
    obtain ⟨k, hk⟩ := ih h
    by_cases hn : move.node = n
    case neg =>
      have hm := contains_of_after? ha hn
      exact ⟨k, by simpa [hn, hm] using hk⟩
    case pos =>
      cases move with
      | enter m =>
        obtain rfl : m = n := hn
        obtain ⟨hm, _, rfl⟩ := after?_enter.mp ha
        exact ⟨k, by simpa [hm] using hk⟩
      | exit m =>
        obtain rfl : m = n := hn
        obtain ⟨hm, _, rfl⟩ := after?_exit.mp ha
        have hk : rest.filter (·.node = m) = alternating m k (b.contains m) := by simpa using hk
        exact ⟨k + 1, by simp [hm, hk, alternating, List.replicate_succ]⟩

end Move

namespace Tree.WellFormed

variable {t : Tree} {a b : Configuration} {ns : List NodeIndex} {n k p : NodeIndex}
  (wf : t.WellFormed)
include wf

theorem depth_lt (h : n ∈ t.ancestors k) : (t.node n).depth < (t.node k).depth := by
  obtain ⟨p, hp⟩ := wf.exists_parent_of_ancestor h
  have he := (wf.child hp).right
  have hs : t.path n <:+ t.ancestors k := he ▸ wf.path_suffix (he ▸ h)
  exact hs.length_le

theorem not_before (h : n ∈ t.ancestors k) : ¬ t.Before k n := by
  have := wf.depth_lt h
  rintro (hd | ⟨hd, _⟩) <;> omega

-- Leaving nodes with all that is active below them, the deepest first.
theorem afterAll?_exits (ho : ns.Pairwise fun k n => t.Before n k) (ha : ∀ n ∈ ns, n ∈ a)
    (hb : ∀ n ∈ ns, ∀ k ∈ a, n ∈ t.ancestors k → k ∈ ns) :
    Move.afterAll? t a (ns.map .exit) = some (a.filter (!ns.contains ·)) := by
  induction ns generalizing a with
  | nil =>
    have he : a.filter (fun n => !([] : List NodeIndex).contains n) = a := by ext; simp
    rw [he]
    rfl
  | cons n rest ih =>
    obtain ⟨hn, ho⟩ := List.pairwise_cons.mp ho
    obtain ⟨hna, hra⟩ := List.forall_mem_cons.mp ha
    have hnr : n ∉ rest := fun h => (hn n h).ne rfl
    refine Move.afterAll?_cons.mpr ⟨_, Move.after?_exit.mpr ⟨hna, fun k hk hnk => ?_, rfl⟩, ?_⟩
    case refine_1 =>
      cases (List.mem_cons.mp (hb n List.mem_cons_self k hk hnk))
      case inl he =>
        subst he
        exact absurd hnk (fun h => (wf.ancestors_lt h).ne rfl)
      case inr hkr => exact wf.not_before hnk (hn k hkr)
    case refine_2 =>
      rw [ih ho]
      · congr 1
        ext k
        simp [and_assoc]
      · intro k hk
        refine SortedSet.mem_filter.mpr ⟨hra k hk, ?_⟩
        have : k ≠ n := fun he => hnr (he ▸ hk)
        simpa using this
      · intro k hk k' hk' hkk
        obtain ⟨hk', hne⟩ := SortedSet.mem_filter.mp hk'
        have := hb k (List.mem_cons_of_mem _ hk) k' hk' hkk
        exact (List.mem_cons.mp this).resolve_left (by simpa using hne)

-- Entering nodes with all that is not yet active above them, the shallowest first.
theorem afterAll?_entries (ho : ns.Pairwise t.Before) (ha : ∀ n ∈ ns, n ∉ a)
    (hp : ∀ n ∈ ns, ∀ p, (t.node n).parent = some p → p ∈ a ∨ p ∈ ns)
    (hb : ∀ n, n ∈ b ↔ n ∈ a ∨ n ∈ ns) : Move.afterAll? t a (ns.map .enter) = some b := by
  induction ns generalizing a with
  | nil =>
    obtain rfl : a = b := by ext; simp [hb]
    rfl
  | cons n rest ih =>
    obtain ⟨hn, ho⟩ := List.pairwise_cons.mp ho
    obtain ⟨hna, hra⟩ := List.forall_mem_cons.mp ha
    have hnr : n ∉ rest := fun h => (hn n h).ne rfl
    refine Move.afterAll?_cons.mpr ⟨_, Move.after?_enter.mpr ⟨hna, fun p hpn => ?_, rfl⟩, ?_⟩
    case refine_1 =>
      have hnp : p ∈ t.ancestors n := List.mem_of_head? hpn
      refine (hp n List.mem_cons_self p hpn).resolve_right fun hpr => ?_
      cases (List.mem_cons.mp hpr)
      case inl he => exact (wf.ancestors_lt hnp).ne he
      case inr hpr => exact wf.not_before hnp (hn p hpr)
    case refine_2 =>
      refine ih ho (fun k hk => ?_) (fun k hk p hpk => ?_) (fun k => ?_)
      · have : k ≠ n := fun he => hnr (he ▸ hk)
        simp [this, hra k hk]
      · have := hp k (List.mem_cons_of_mem _ hk) p hpk
        simp only [SortedSet.mem_insert, List.mem_cons] at this ⊢
        tauto
      · simp only [hb, SortedSet.mem_insert, List.mem_cons]
        tauto

end Tree.WellFormed

variable {C S σ : Type} {t : Tree} {r : Registry C S} {c : Configuration} {us : List Transition}
  {step : Microstep C} {ms : List (Microstep C)} {s : MachineState C} {e : Event} {x : C}
  {h : History}

namespace Microstep

-- Nodes are exited before others are entered.
def moves (m : Microstep C) : List Move := m.exited.map .exit ++ m.entered.map .enter

-- The moves of a microstep lead from what was active to what is active after it.
theorem Arises.afterAll?_moves (wf : t.WellFormed) (ha : Arises t r c us step) :
    Move.afterAll? t c step.moves = some step.configuration := by
  have hl := (Configuration.isLegal_iff wf).mp ha.legal
  refine Move.afterAll?_append.mpr ⟨_, wf.afterAll?_exits ha.exited_ordered ?_ ?_,
    wf.afterAll?_entries ha.entered_ordered ?_ ?_ ?_⟩
  · exact fun n hn => ((ha.mem_exited wf).mp hn).left
  · intro n hn k hk hnk
    obtain ⟨_, u, hu, hx⟩ := (ha.mem_exited wf).mp hn
    obtain ⟨d, hd, hdn⟩ := Tree.exits_iff.mp hx
    have hdk := wf.ancestors_of_ancestor_path hdn (Tree.mem_path_of_ancestor hnk)
    exact (ha.mem_exited wf).mpr ⟨hk, u, hu, Tree.exits_iff.mpr ⟨d, hd, hdk⟩⟩
  · intro n hn
    have := ((ha.mem_entered wf).mp hn).right
    simpa using this
  · intro n hn p hp
    have hpc := hl.parent ((ha.mem_entered wf).mp hn).left hp
    exact ((ha.mem_configuration wf).mp hpc).symm.imp_left (by simp)
  · intro n
    simp [ha.mem_configuration wf, or_comm]

theorem afterAll?_deepestFirst (wf : t.WellFormed) :
    Move.afterAll? t c ((deepestFirst t c).map .exit) = some ∅ := by
  rw [wf.afterAll?_exits (deepestFirst_ordered t c) (fun _ => (mem_deepestFirst wf).mp)
    fun _ _ _ hk _ => (mem_deepestFirst wf).mpr hk]
  congr 1
  ext n
  simp [mem_deepestFirst wf]

-- Leaving everything only fails for an exit action that is not registered.
theorem exists_exitAll (wf : t.WellFormed)
    (hk : ∀ n ∈ c, ∀ a ∈ (t.node n).exit, a.Known r) : ∃ m, exitAll t r e c x h = .ok m ∧
      m.exited = deepestFirst t c ∧ m.entered = [] ∧ m.configuration = ∅ := by
  have hk : ∀ n ∈ deepestFirst t c, ∀ a ∈ (t.node n).exit, a.Known r :=
    fun n hn => hk n ((mem_deepestFirst wf).mp hn)
  obtain ⟨p, hp⟩ := (Plan.exists_foldlM (f := Plan.exit r e t) (fun _ _ => Plan.exists_exit) _
    { context := x }).mpr hk
  exact ⟨_, bind_eq_ok.mpr ⟨p, hp, rfl⟩, rfl, rfl, rfl⟩

end Microstep

-- After each of the microsteps, which nodes have been entered and not yet exited are those that are
-- active, each node having been entered and exited in turn; and each microstep exits and enters
-- them in their order.
def Bracketed (t : Tree) (ms : List (Microstep C)) : Prop :=
  ∀ before step later, ms = before ++ step :: later →
    let moves := (before ++ [step]).flatMap Microstep.moves
    Move.afterAll? t ∅ moves = some step.configuration ∧
      (∀ n, ∃ k, moves.filter (·.node = n) = Move.alternating n k (step.configuration.contains n)) ∧
      step.exited.Pairwise (fun k n => t.Before n k) ∧ step.entered.Pairwise t.Before

namespace Bracketed

theorem nil : Bracketed t ([] : List (Microstep C)) := by
  intro before step later h
  simp at h

theorem append (hms : Bracketed t ms)
    (hc : Move.afterAll? t ∅ (ms.flatMap Microstep.moves) = some c)
    (hs : Move.afterAll? t c step.moves = some step.configuration)
    (hx : step.exited.Pairwise fun k n => t.Before n k) (hn : step.entered.Pairwise t.Before) :
    Bracketed t (ms ++ [step]) ∧
      Move.afterAll? t ∅ ((ms ++ [step]).flatMap Microstep.moves) = some step.configuration := by
  have hlast : Move.afterAll? t ∅ ((ms ++ [step]).flatMap Microstep.moves) =
      some step.configuration := by
    rw [List.flatMap_append]
    exact Move.afterAll?_append.mpr ⟨c, hc, by simpa using hs⟩
  refine ⟨fun before step' later he => ?_, hlast⟩
  rcases List.eq_nil_or_concat later with rfl | ⟨later, last, rfl⟩
  · obtain ⟨rfl, hstep⟩ := List.append_inj' he rfl
    obtain rfl := List.singleton_inj.mp hstep
    refine ⟨hlast, fun n => ?_, hx, hn⟩
    have hnot : (∅ : Configuration).contains n = false := by simp
    obtain ⟨k, hk⟩ := Move.exists_alternating n hlast
    exact ⟨k, by simpa [hnot] using hk⟩
  · rw [List.concat_eq_append, ← List.cons_append, ← List.append_assoc] at he
    exact hms before step' later (List.append_inj' he rfl).left

end Bracketed

namespace Macrostep

-- Notes the microsteps that are committed.
def noting (commit : Commit σ C) : Commit (σ × List (Microstep C)) C := fun (shell, ms) m e => do
  let (shell, refusal) ← commit shell m e
  pure ((shell, if refusal.isNone then ms ++ [m] else ms), refusal)

-- From its start on a machine has committed `ms` and come to `s`, started while nothing is active
-- and given events until it is done. How its microsteps are committed and how many a macrostep may
-- take is left open.
inductive Chronicle (t : Tree) (r : Registry C S) :
    List (Microstep C) → MachineState C → Prop
  | new {x : C} : Chronicle t r [] (.unstarted x)
  | run {σ ms s trigger config p} {commit : Commit σ C} {shell : σ} : Chronicle t r ms s →
      s.done = false → (trigger = .start → s.configuration = ∅) →
      (run t r config (noting commit) (shell, ms) s trigger).outcome = .ok p →
      Chronicle t r p.shell.2 p.state

variable {commit : Commit σ C} {shell shell' : σ} {ms' : List (Microstep C)} {m : Microstep C}
  {refusal : Option ExecutionError}

theorem noting_eq_ok (hc : (noting commit (shell, ms) m e).outcome = .ok ((shell', ms'), refusal)) :
    (commit shell m e).outcome = .ok (shell', refusal) ∧
      ms' = if refusal.isNone then ms ++ [m] else ms := by
  obtain ⟨_, hc', hp⟩ := Turn.bind_eq_ok.mp hc
  cases hp
  exact ⟨hc', rfl⟩

-- Noting the microsteps changes nothing.
theorem run_noting {config : Config} {trigger : Trigger} {p : Progress σ C}
    (ms : List (Microstep C)) (hp : (run t r config commit shell s trigger).outcome = .ok p) :
    ∃ p', (run t r config (noting commit) (shell, ms) s trigger).outcome = .ok p' ∧
      p'.state = p.state := by
  have hforget (x : σ × List (Microstep C)) (m : Microstep C) (e : Event) :
      (fun y => (y.1.1, y.2)) <$> noting commit x m e = commit x.1 m e := by
    rw [noting, map_bind]
    exact bind_pure _
  rw [← run_map hforget (shell, ms)] at hp
  obtain ⟨p', hp', rfl⟩ := Turn.map_eq_ok.mp hp
  exact ⟨p', hp', rfl⟩

theorem noting_keeps (wf : t.WellFormed) : Keeps t r (noting commit) fun x s =>
    Bracketed t x.2 ∧ Move.afterAll? t ∅ (x.2.flatMap Microstep.moves) = some s.configuration where
  accept {x x' s us m e} hs _ ha _ hc := by
    obtain ⟨_, he⟩ := noting_eq_ok hc
    rw [he]
    exact hs.left.append hs.right (ha.afterAll?_moves wf) ha.exited_ordered ha.entered_ordered
  refuse {x x' s m e err} hs hc := by
    obtain ⟨_, he⟩ := noting_eq_ok hc
    rw [he]
    exact hs

end Macrostep

namespace Machine

variable {m : Machine C S}

-- A machine that builds knows all actions of its tree.
theorem build_eq_ok {machineId : String} {root : Definition.State} {config : Config}
    (hb : build machineId (some root) r (some x) config = .ok m) :
    root.build machineId = .ok m.tree ∧ m.registry = r ∧
      Definition.referenceProblems r m.tree = [] := by
  obtain ⟨t, ht, hb⟩ := Microstep.bind_eq_ok.mp hb
  obtain ⟨_, hr, hb⟩ := Microstep.bind_eq_ok.mp hb
  cases hb
  refine ⟨ht, rfl, ?_⟩
  simpa [Definition.check] using hr

-- Every play is recorded by a chronicle.
theorem play_chronicle {es : List Event} {step : MachineStep C}
    (h : (m.play es).outcome = .ok step) :
    ∃ ms, Macrostep.Chronicle m.tree m.registry ms step.state := by
  refine play_preserves (I := fun s => ∃ ms, Macrostep.Chronicle m.tree m.registry ms s)
    ⟨[], .new⟩ ?_ h
  rintro s trigger p ⟨ms, hs⟩ hd hst hp
  obtain ⟨p', hp', he⟩ := Macrostep.run_noting ms hp
  exact ⟨_, he ▸ hs.run hd (fun he => hst he ▸ rfl) hp'⟩

end Machine

namespace Definition

theorem exit_known {n : NodeIndex} (hr : referenceProblems r t = []) :
    ∀ a ∈ (t.node n).exit, a.Known r :=
  fun _ ha => ((provides_of_referenceProblems hr).exit ha).known

end Definition

namespace Macrostep.Chronicle

theorem bracketed_steady (wf : t.WellFormed) (hs : Chronicle t r ms s) : s.Steady t ∧
    Bracketed t ms ∧ Move.afterAll? t ∅ (ms.flatMap Microstep.moves) = some s.configuration := by
  induction hs with
  | new => exact ⟨⟨.inl rfl, History.empty_within, History.empty_joint⟩, .nil, rfl⟩
  | run _ hd hst hp ih =>
    have hms := run_keeps wf (noting_keeps wf) hd ih.left.legal hst ih.right hp
    exact ⟨run_steady wf ih.left hp, hms⟩

-- However long a machine runs, its entries and exits are well bracketed along its tree, and so they
-- are if all that is active is left in the end.
theorem bracketed {machineId : String} {root : Definition.State} {config : Config}
    {m : Machine C S} (hb : Machine.build machineId (some root) r (some x) config = .ok m)
    (hs : Chronicle m.tree m.registry ms s) : Bracketed m.tree ms ∧
      Move.afterAll? m.tree ∅ (ms.flatMap Microstep.moves) = some s.configuration ∧
      ∀ e y h, ∃ last, Microstep.exitAll m.tree m.registry e s.configuration y h = .ok last ∧
        Bracketed m.tree (ms ++ [last]) ∧ last.configuration = ∅ := by
  obtain ⟨ht, rfl, hr⟩ := Machine.build_eq_ok hb
  have wf := Definition.State.build_wellFormed ht
  obtain ⟨_, hms, hc⟩ := hs.bracketed_steady wf
  refine ⟨hms, hc, fun e y h => ?_⟩
  obtain ⟨last, hlast, hx, hn, hempty⟩ := Microstep.exists_exitAll (e := e) (x := y) (h := h) wf
    fun n (_ : n ∈ s.configuration) => Definition.exit_known hr
  refine ⟨last, hlast, (hms.append hc ?_ ?_ ?_).left, hempty⟩
  · rw [Microstep.moves, hx, hn, hempty, List.map_nil, List.append_nil]
    exact Microstep.afterAll?_deepestFirst wf
  · exact hx ▸ Microstep.deepestFirst_ordered _ _
  · exact hn ▸ .nil

end Macrostep.Chronicle

namespace Machine

theorem player_machine_build :
    build "m" (some player) ({} : Registry Unit Unit) (some ()) {} = .ok playerMachine := by
  have hr : Definition.referenceProblems ({} : Registry Unit Unit) playerTree = [] := by
    decide +kernel
  simp [build, player_build, ofTree, Definition.check, hr, playerMachine, bind, Except.bind, pure,
    Except.pure]

-- The player is started, plays, and flips both the sound and the picture.
theorem player_chronicle : ∃ ms, Macrostep.Chronicle playerTree ({} : Registry Unit Unit) ms
    (.plain (.ofList [0, 2, 4, 6, 7, 10])) ∧ ms.length = 3 := by
  have hstep {trigger : Trigger} {m : Microstep Unit} {c c' : Configuration}
      {ms : List (Microstep Unit)}
      (hs : Macrostep.Chronicle playerTree ({} : Registry Unit Unit) ms (.plain c))
      (hst : trigger = .start → c = ∅)
      (hm : Macrostep.Reacts playerTree ({} : Registry Unit Unit) {} (.plain c) trigger m
        (.plain c')) : Macrostep.Chronicle playerTree ({} : Registry Unit Unit) (ms ++ [m])
          (.plain c') :=
    have hc : (Macrostep.noting noteActions ([], ms) m trigger.toEvent).outcome =
        .ok ((m.actions, ms ++ [m]), none) := rfl
    hs.run rfl hst (Macrostep.run_of_reacts hm hc)
  obtain ⟨m₀, h₀, _⟩ : ∃ m, Macrostep.Reacts playerTree ({} : Registry Unit Unit) {} (.plain ∅)
      .start m (.plain (.ofList [0, 1])) ∧ m.actions = [] :=
    Macrostep.exists_reacts (by decide +kernel)
  obtain ⟨m₁, h₁, _⟩ : ∃ m, Macrostep.Reacts playerTree ({} : Registry Unit Unit) {}
      (.plain (.ofList [0, 1])) (.event ⟨"PLAY", .null⟩) m (.plain (.ofList [0, 2, 4, 5, 7, 9])) ∧
        m.actions = [.cancelOwned 1] :=
    Macrostep.exists_reacts (by decide +kernel)
  obtain ⟨m₂, h₂, _⟩ : ∃ m, Macrostep.Reacts playerTree ({} : Registry Unit Unit) {}
      (.plain (.ofList [0, 2, 4, 5, 7, 9])) (.event ⟨"FLIP", .null⟩) m
        (.plain (.ofList [0, 2, 4, 6, 7, 10])) ∧ m.actions = [.cancelOwned 9, .cancelOwned 5] :=
    Macrostep.exists_reacts (by decide +kernel)
  exact ⟨_, hstep (hstep (hstep .new (by simp) h₀) (by simp) h₁) (by simp) h₂, rfl⟩

end Machine

theorem Macrostep.Chronicle.bracketed_player : ∃ ms s,
    Chronicle playerTree ({} : Registry Unit Unit) ms s ∧ ms.length = 3 ∧
      s.configuration = .ofList [0, 2, 4, 6, 7, 10] ∧ Bracketed playerTree ms := by
  obtain ⟨ms, h, hl⟩ := Machine.player_chronicle
  exact ⟨ms, _, h, hl, rfl, (bracketed Machine.player_machine_build h).left⟩

end Statechart
