import Statechart.Proofs.Microstep

-- What a microstep plans, and when its plan can be made: planning only fails for an action or a
-- delay that the registry does not know.

namespace Statechart

variable {C S : Type} {t : Tree} {r : Registry C S} {e : Event} {c : Configuration} {x : C}
  {h : History} {us : List Transition} {k n p : NodeIndex}

-- The registry has what the action names.
def Action.Known (r : Registry C S) : Action → Prop
  | .named name => r.hasAction name = true
  | .send s => ∀ name, s.delay = some (.named name) → r.hasDelay name = true
  | .raise _ | .cancel _ | .log _ | .spawn .. | .stop _ => True

-- What the action makes of the context.
def Action.assigned (r : Registry C S) (e : Event) (x : C) : Action → C
  | .named name =>
    match r.actions.find? name with
    | some (.assign update) => update x e
    | _ => x
  | _ => x

-- The events that the action adds to those for the machine itself.
def Action.raises : Action → List Event
  | .raise e => [e]
  | _ => []

namespace Plan

variable {p : Plan C} {owner : NodeIndex} {a : Action} {actions : List Action}

-- A loop whose steps succeed or fail whatever was done before succeeds if each of them does.
theorem exists_foldlM {ε α β : Type} {f : β → α → Except ε β} {P : α → Prop}
    (hf : ∀ b a, (∃ b', f b a = .ok b') ↔ P a) (l : List α) (b : β) :
    (∃ b', l.foldlM f b = .ok b') ↔ ∀ a ∈ l, P a := by
  induction l generalizing b with
  | nil => simp [pure, Except.pure]
  | cons a rest ih =>
    rw [List.foldlM_cons, List.forall_mem_cons, ← hf b a]
    constructor
    case mp =>
      intro ⟨b', h⟩
      have ⟨b₁, h₁, h₂⟩ := Microstep.bind_eq_ok.mp h
      exact ⟨⟨b₁, h₁⟩, (ih b₁).mp ⟨b', h₂⟩⟩
    case mpr =>
      intro ⟨⟨b₁, h₁⟩, h⟩
      have ⟨b', h₂⟩ := (ih b₁).mpr h
      exact ⟨b', Microstep.bind_eq_ok.mpr ⟨b₁, h₁, h₂⟩⟩

-- What every step of a loop keeps, the loop keeps.
theorem foldlM_keeps {ε α β : Type} {f : β → α → Except ε β} {I : β → Prop} {l : List α} {b b' : β}
    (hf : ∀ b, ∀ a ∈ l, ∀ b', I b → f b a = .ok b' → I b') (hb : I b)
    (h : l.foldlM f b = .ok b') : I b' := by
  induction l generalizing b with
  | nil =>
    cases h
    exact hb
  | cons a rest ih =>
    have ⟨b₁, h₁, h⟩ := Microstep.bind_eq_ok.mp h
    exact ih (fun b a ha => hf b a (List.mem_cons_of_mem _ ha))
      (hf b a List.mem_cons_self b₁ hb h₁) h

theorem exists_add : (∃ q, add r e owner p a = .ok q) ↔ a.Known r := by
  cases a with
  | named name =>
    simp only [add, Action.Known, Registry.hasAction]
    cases r.actions.find? name with
    | none => simp
    | some body => cases body <;> simp
  | send s =>
    simp only [add, Action.Known, Registry.hasDelay]
    cases s.delay with
    | none => simp [bind, Except.bind, pure, Except.pure]
    | some d =>
      cases d with
      | fixed d => simp [delay, bind, Except.bind, pure, Except.pure, Functor.map, Except.map]
      | named name =>
        cases hf : r.delays.find? name <;>
          simp [delay, hf, bind, Except.bind, pure, Except.pure, Functor.map, Except.map]
  | _ => simp [add, Action.Known]

theorem exists_addAll (owner : NodeIndex) :
    (∃ q, addAll r e owner p actions = .ok q) ↔ ∀ a ∈ actions, a.Known r :=
  exists_foldlM (f := add r e owner) (fun _ _ => exists_add) actions p

theorem exists_exit : (∃ q, exit r e t p n = .ok q) ↔ ∀ a ∈ (t.node n).exit, a.Known r := by
  rw [← exists_addAll Tree.root (e := e) (p := p)]
  cases hq : addAll r e Tree.root p (t.node n).exit <;>
    simp [exit, hq, bind, Except.bind, pure, Except.pure]

theorem exists_enter : (∃ q, enter r e t p n = .ok q) ↔ ∀ a ∈ (t.node n).entry, a.Known r := by
  rw [← exists_addAll n (e := e) (p := p)]
  cases hq : addAll r e n p (t.node n).entry <;>
    simp [enter, hq, bind, Except.bind, pure, Except.pure]

section Contents

variable {q : Plan C} {x : Planned}

-- A plan only grows.
theorem add_extends (h : add r e owner p a = .ok q) : p.actions <+: q.actions := by
  cases a with
  | named name =>
    simp only [add] at h
    split at h
    · cases h
      exact List.prefix_refl _
    · cases h
      exact List.prefix_append ..
    · cases h
  | send s =>
    obtain ⟨_, _, h⟩ := Microstep.bind_eq_ok.mp h
    cases h
    exact List.prefix_append ..
  | raise =>
    cases h
    exact List.prefix_refl _
  | _ =>
    cases h
    exact List.prefix_append ..

theorem foldlM_extends {ε α : Type} {f : Plan C → α → Except ε (Plan C)}
    (hf : ∀ p a q, f p a = .ok q → p.actions <+: q.actions) {l : List α}
    (h : l.foldlM f p = .ok q) : p.actions <+: q.actions :=
  foldlM_keeps (I := fun q => p.actions <+: q.actions)
    (fun p' a _ q hp hq => hp.trans (hf p' a q hq)) (List.prefix_refl _) h

-- What one of the steps plans is in the plan.
theorem mem_of_foldlM {ε α : Type} {f : Plan C → α → Except ε (Plan C)} {a : α} {l : List α}
    (hf : ∀ p a q, f p a = .ok q → p.actions <+: q.actions)
    (ha : ∀ p q, f p a = .ok q → x ∈ q.actions) (hal : a ∈ l) (h : l.foldlM f p = .ok q) :
    x ∈ q.actions := by
  induction l generalizing p with
  | nil => simp at hal
  | cons b rest ih =>
    have ⟨p₁, h₁, h₂⟩ := Microstep.bind_eq_ok.mp h
    cases (List.mem_cons.mp hal)
    case inl he =>
      subst he
      exact (foldlM_extends hf h₂).subset (ha p p₁ h₁)
    case inr hal => exact ih hal h₂

theorem addAll_extends (h : addAll r e owner p actions = .ok q) : p.actions <+: q.actions :=
  foldlM_extends (fun _ _ _ => add_extends) h

theorem exit_extends (h : exit r e t p n = .ok q) : p.actions <+: q.actions := by
  have ⟨p₁, h₁, h⟩ := Microstep.bind_eq_ok.mp h
  cases h
  exact (addAll_extends h₁).trans (by simp)

-- The end of every invocation of the node and of the delayed events it owns.
theorem mem_of_exit (h : exit r e t p n = .ok q) :
    .cancelOwned n ∈ q.actions ∧ ∀ i ∈ (t.node n).invocations, .stop i.id ∈ q.actions := by
  have ⟨p₁, h₁, h⟩ := Microstep.bind_eq_ok.mp h
  cases h
  refine ⟨by simp, fun i hi => ?_⟩
  simp only [List.mem_append, List.mem_map]
  exact .inl (.inr ⟨i, hi, rfl⟩)

theorem mem_of_exits {ns : List NodeIndex} (hn : n ∈ ns)
    (h : ns.foldlM (Plan.exit r e t) p = .ok q) :
    .cancelOwned n ∈ q.actions ∧ ∀ i ∈ (t.node n).invocations, .stop i.id ∈ q.actions := by
  have hf (p : Plan C) (n : NodeIndex) (q : Plan C) (h : Plan.exit r e t p n = .ok q) :
      p.actions <+: q.actions := exit_extends h
  refine ⟨mem_of_foldlM hf (fun _ _ h => (mem_of_exit h).left) hn h, fun i hi => ?_⟩
  exact mem_of_foldlM hf (fun _ _ h => (mem_of_exit h).right i hi) hn h

-- A send after a fixed delay belongs to the node that plans it.
theorem mem_of_add {s : Send} {d : Duration} (hd : s.delay = some (.fixed d))
    (h : add r e owner p (.send s) = .ok q) :
    .send (s.event.getD e) s.target (some d) s.id owner ∈ q.actions := by
  have ⟨_, hd', h⟩ := Microstep.bind_eq_ok.mp h
  rw [hd] at hd'
  cases hd'
  cases h
  simp [push]

theorem mem_of_enter {s : Send} {d : Duration} (hs : .send s ∈ (t.node n).entry)
    (hd : s.delay = some (.fixed d)) (h : enter r e t p n = .ok q) :
    .send (s.event.getD e) s.target (some d) s.id n ∈ q.actions := by
  have ⟨p₁, h₁, h⟩ := Microstep.bind_eq_ok.mp h
  cases h
  exact List.mem_append_left _ (mem_of_foldlM (f := add r e n) (fun _ _ _ => add_extends)
    (fun _ _ => mem_of_add hd) hs h₁)

theorem enter_extends (h : enter r e t p n = .ok q) : p.actions <+: q.actions := by
  have ⟨p₁, h₁, h⟩ := Microstep.bind_eq_ok.mp h
  cases h
  exact (addAll_extends h₁).trans (List.prefix_append ..)

-- What the steps of a loop make of a part of the plan, they make of it one after the other.
theorem foldlM_part {ε α β : Type} (part : Plan C → β) {f : Plan C → α → Except ε (Plan C)}
    {g : β → α → β} (hf : ∀ p a q, f p a = .ok q → part q = g (part p) a) {l : List α}
    (h : l.foldlM f p = .ok q) : part q = l.foldl g (part p) := by
  induction l generalizing p with
  | nil =>
    cases h
    rfl
  | cons a rest ih =>
    have ⟨p₁, h₁, h₂⟩ := Microstep.bind_eq_ok.mp h
    rw [ih h₂, hf p a p₁ h₁, List.foldl_cons]

-- If each step adds what it raises, a loop adds what all of them raise, in their order.
theorem foldlM_raised {ε α : Type} {f : Plan C → α → Except ε (Plan C)} {g : α → List Event}
    (hf : ∀ p a q, f p a = .ok q → q.raised = p.raised ++ g a) {l : List α}
    (h : l.foldlM f p = .ok q) : q.raised = p.raised ++ l.flatMap g := by
  rw [foldlM_part raised (g := fun es a => es ++ g a) hf h, List.foldl_append_eq_append,
    List.flatMap_def]

theorem add_raised (h : add r e owner p a = .ok q) : q.raised = p.raised ++ a.raises := by
  cases a with
  | named name =>
    simp only [add] at h
    split at h <;> cases h <;> simp [Action.raises, push]
  | send s =>
    obtain ⟨_, _, h⟩ := Microstep.bind_eq_ok.mp h
    cases h
    simp [Action.raises, push]
  | _ =>
    cases h
    simp [Action.raises, push, raise]

theorem addAll_raised (h : addAll r e owner p actions = .ok q) :
    q.raised = p.raised ++ actions.flatMap Action.raises :=
  foldlM_raised (f := add r e owner) (fun _ _ _ => add_raised) h

theorem exit_raised (h : exit r e t p n = .ok q) :
    q.raised = p.raised ++ (t.node n).exit.flatMap Action.raises := by
  have ⟨p₁, h₁, h⟩ := Microstep.bind_eq_ok.mp h
  cases h
  exact addAll_raised (q := p₁) h₁

theorem enter_raised (h : enter r e t p n = .ok q) :
    q.raised = p.raised ++ (t.node n).entry.flatMap Action.raises := by
  have ⟨p₁, h₁, h⟩ := Microstep.bind_eq_ok.mp h
  cases h
  exact addAll_raised (q := p₁) h₁

theorem add_context (h : add r e owner p a = .ok q) : q.context = a.assigned r e p.context := by
  cases a with
  | named name =>
    simp only [add] at h
    split at h
    case h_1 hn =>
      cases h
      simp [Action.assigned, hn]
    case h_2 hn =>
      cases h
      simp [Action.assigned, hn, push]
    case h_3 => cases h
  | send s =>
    obtain ⟨_, _, h⟩ := Microstep.bind_eq_ok.mp h
    cases h
    rfl
  | _ =>
    cases h
    rfl

theorem addAll_context (h : addAll r e owner p actions = .ok q) :
    q.context = actions.foldl (Action.assigned r e) p.context :=
  foldlM_part context (f := add r e owner) (fun _ _ _ => add_context) h

theorem exit_context (h : exit r e t p n = .ok q) :
    q.context = (t.node n).exit.foldl (Action.assigned r e) p.context := by
  have ⟨p₁, h₁, h⟩ := Microstep.bind_eq_ok.mp h
  cases h
  exact addAll_context (q := p₁) h₁

theorem enter_context (h : enter r e t p n = .ok q) :
    q.context = (t.node n).entry.foldl (Action.assigned r e) p.context := by
  have ⟨p₁, h₁, h⟩ := Microstep.bind_eq_ok.mp h
  cases h
  exact addAll_context (q := p₁) h₁

end Contents

end Plan

namespace Microstep

variable {m : Microstep C}

-- The nodes that a microstep exits, and those that it enters.
def exitedBy (t : Tree) (c : Configuration) (us : List Transition) : List NodeIndex :=
  deepestFirst t (exiting t c us)

def enteredBy (t : Tree) (c : Configuration) (h : History) (us : List Transition) :
    List NodeIndex :=
  t.shallowestFirst
    ((next t c (historyAfter t c h us) us).filter fun n => !(remaining t c us).contains n).toList

-- The actions that were declared for what a microstep exits, for its transitions `us` and for what
-- it enters, in the order they are planned.
def declared (t : Tree) (us : List Transition) (m : Microstep C) : List Action :=
  m.exited.flatMap (fun n => (t.node n).exit) ++ us.flatMap (·.actions) ++
    m.entered.flatMap fun n => (t.node n).entry

-- A microstep is planned in three parts, one after the other.
structure Parts (t : Tree) (r : Registry C S) (e : Event) (c : Configuration) (x : C) (h : History)
    (us : List Transition) (p q s : Plan C) : Prop where
  exits : (exitedBy t c us).foldlM (Plan.exit r e t) { context := x } = .ok p
  transitions : us.foldlM (addTransition t r e) { p with actions := [] } = .ok q
  entries : (enteredBy t c h us).foldlM (enterNode t r e)
    { context := q.context, raised := q.raised } = .ok s

theorem mem_exitedBy (wf : t.WellFormed) :
    n ∈ exitedBy t c us ↔ n ∈ c ∧ ∃ u ∈ us, t.exits u n = true := by
  rw [exitedBy, deepestFirst, List.mem_reverse, wf.mem_shallowestFirst, ← SortedSet.mem_iff,
    exiting, SortedSet.mem_filter, List.any_eq_true]

-- A history node remembers what was active when its parent was last exited.
theorem find?_historyAfter (wf : t.WellFormed) {kind : HistoryKind}
    (hk : (t.node k).kind = .history kind) (hp : (t.node k).parent = some p) :
    (historyAfter t c h us).find? k =
      if p ∈ exitedBy t c us then some (History.remembered t c p kind) else h.find? k :=
  History.find?_recordExit wf _ hk hp

theorem planned_eq_ok {p : Except ExecutionError (Plan C)} {q : Plan C} :
    planned p = .ok q ↔ p = .ok q := by
  cases p <;> simp [planned, Except.mapError]

theorem enter_eq_ok_iff {m m' : Microstep C} {raised : List Event} {rest after : Configuration} :
    enter t r e m raised rest after = .ok m' ↔ after.isLegal t = true ∧ ∃ s,
      arrive t r e m.context raised rest after = .ok s ∧
      let entered := t.shallowestFirst (after.filter fun n => !rest.contains n).toList
      let parallels := t.completedParallels after entered
      { m with
        configuration := after
        context := s.context
        entered := entered
        entryActions := s.actions
        raised := s.raised ++ t.parallelEvents parallels
        done := entered.any t.endsMachine || parallels.contains Tree.root
        doneData := t.doneData entered } = m' := by
  cases hl : after.isLegal t
  case false => simp [enter_of_illegal hl]
  case true =>
    simp only [enter, hl, arrive, Bool.not_true, Bool.false_eq_true, ↓reduceIte, true_and]
    simp only [bind_eq_ok, planned_eq_ok, pure, Except.pure, Except.ok.injEq]

-- All that a microstep comes to.
theorem take_eq_ok_iff : take t r e c x h us = .ok m ↔
    (next t c (historyAfter t c h us) us).isLegal t = true ∧ ∃ p q s, Parts t r e c x h us p q s ∧
      let after := next t c (historyAfter t c h us) us
      let parallels := t.completedParallels after (enteredBy t c h us)
      { configuration := after
        context := s.context
        history := historyAfter t c h us
        exited := exitedBy t c us
        entered := enteredBy t c h us
        exitActions := p.actions
        transitionActions := q.actions
        entryActions := s.actions
        raised := s.raised ++ t.parallelEvents parallels
        done := (enteredBy t c h us).any t.endsMachine || parallels.contains Tree.root
        doneData := t.doneData (enteredBy t c h us) } = m := by
  simp only [take, bind_eq_ok, planned_eq_ok, enter_eq_ok_iff]
  constructor
  case mp =>
    rintro ⟨p, hp, q, hq, hl, s, hs, hm⟩
    exact ⟨hl, p, q, s, ⟨hp, hq, hs⟩, hm⟩
  case mpr =>
    rintro ⟨hl, p, q, s, hparts, hm⟩
    exact ⟨p, hparts.exits, q, hparts.transitions, hl, s, hparts.entries, hm⟩

theorem take_lists (hm : take t r e c x h us = .ok m) :
    m.exited = exitedBy t c us ∧ m.entered = enteredBy t c h us := by
  obtain ⟨_, p, q, s, _, rfl⟩ := take_eq_ok_iff.mp hm
  exact ⟨rfl, rfl⟩

-- Among the actions of a microstep are the ends of all that belongs to an exited node.
theorem mem_exitActions (hm : take t r e c x h us = .ok m) (hn : n ∈ m.exited) :
    .cancelOwned n ∈ m.exitActions ∧ ∀ i ∈ (t.node n).invocations, .stop i.id ∈ m.exitActions := by
  obtain ⟨_, p, q, s, hparts, rfl⟩ := take_eq_ok_iff.mp hm
  exact Plan.mem_of_exits hn hparts.exits

theorem mem_of_enterNodes {p q : Plan C} {s : Send} {d : Duration} {ns : List NodeIndex}
    (hs : .send s ∈ (t.node n).entry) (hd : s.delay = some (.fixed d)) (hn : n ∈ ns)
    (h : ns.foldlM (enterNode t r e) p = .ok q) :
    .send (s.event.getD e) s.target (some d) s.id n ∈ q.actions := by
  have hstep {p q : Plan C} {k : NodeIndex} (h : enterNode t r e p k = .ok q) :
      ∃ q', Plan.enter r e t p k = .ok q' ∧ q'.actions = q.actions := by
    have ⟨q', hq, h⟩ := bind_eq_ok.mp h
    cases h
    exact ⟨q', hq, rfl⟩
  refine Plan.mem_of_foldlM (fun p k q h => ?_) (fun p q h => ?_) hn h
  case refine_1 =>
    have ⟨q', hq, ha⟩ := hstep h
    exact ha ▸ Plan.enter_extends hq
  case refine_2 =>
    have ⟨q', hq, ha⟩ := hstep h
    exact ha ▸ Plan.mem_of_enter hs hd hq

theorem enterNode_raised {p q : Plan C} (h : enterNode t r e p n = .ok q) : q.raised = p.raised ++
    ((t.node n).entry.flatMap Action.raises ++ (t.doneEvent? n).toList) := by
  have ⟨q', hq, h⟩ := bind_eq_ok.mp h
  cases h
  simp [Plan.enter_raised hq]

-- Among the actions of a microstep are the timers of every entered node.
theorem mem_entryActions {s : Send} {d : Duration} (hs : .send s ∈ (t.node n).entry)
    (hd : s.delay = some (.fixed d)) (hm : take t r e c x h us = .ok m) (hn : n ∈ m.entered) :
    .send (s.event.getD e) s.target (some d) s.id n ∈ m.entryActions := by
  obtain ⟨_, p, q, s, hparts, rfl⟩ := take_eq_ok_iff.mp hm
  exact mem_of_enterNodes hs hd hn hparts.entries

theorem mem_entryActions_initial {s : Send} {d : Duration} (hs : .send s ∈ (t.node n).entry)
    (hd : s.delay = some (.fixed d)) (hm : initial t r e x h = .ok m) (hn : n ∈ m.entered) :
    .send (s.event.getD e) s.target (some d) s.id n ∈ m.entryActions := by
  obtain ⟨_, s, hparts, rfl⟩ := enter_eq_ok_iff.mp hm
  exact mem_of_enterNodes hs hd hn hparts

-- What is active after a microstep was entered by it, or was active before and not exited.
theorem mem_configuration (wf : t.WellFormed) (hc : c.Legal t) (hm : take t r e c x h us = .ok m) :
    n ∈ m.configuration ↔ n ∈ m.entered ∨ n ∈ c ∧ n ∉ m.exited := by
  have hr : n ∈ remaining t c us ↔ n ∈ c ∧ n ∉ m.exited := by
    rw [(take_lists hm).left, mem_exitedBy wf, mem_remaining]
    simp +contextual
  have hn : n ∈ remaining t c us → n ∈ next t c (historyAfter t c h us) us := by
    intro hn
    rw [next]
    split
    · exact hn
    · exact wf.mem_resolve.mpr (.above ((mem_concrete_seeds hc).mpr (.inl hn)) Tree.self_mem_path)
  rw [(take_eq_ok hm).left, (take_lists hm).right, enteredBy, wf.mem_shallowestFirst,
    ← SortedSet.mem_iff, SortedSet.mem_filter, ← hr]
  by_cases h : n ∈ remaining t c us <;> simp [h, hn]

-- At the start everything that becomes active is entered.
theorem mem_configuration_initial (wf : t.WellFormed) (hm : initial t r e x h = .ok m) :
    (n ∈ m.configuration ↔ n ∈ m.entered) ∧ m.exited = [] := by
  obtain ⟨_, s, _, rfl⟩ := enter_eq_ok_iff.mp hm
  refine ⟨?_, rfl⟩
  simp [wf.mem_shallowestFirst, ← SortedSet.mem_iff]

theorem enterNodes_context {p q : Plan C} {ns : List NodeIndex}
    (h : ns.foldlM (enterNode t r e) p = .ok q) : q.context =
      ns.foldl (fun x n => (t.node n).entry.foldl (Action.assigned r e) x) p.context := by
  refine Plan.foldlM_part Plan.context (fun p n q h => ?_) h
  have ⟨q', hq, h⟩ := bind_eq_ok.mp h
  cases h
  exact Plan.enter_context (q := q') hq

-- All assignments are made, whether or not the microstep is committed in the end.
theorem take_context (hm : take t r e c x h us = .ok m) :
    m.context = (m.declared t us).foldl (Action.assigned r e) x := by
  obtain ⟨_, p, q, s, hparts, rfl⟩ := take_eq_ok_iff.mp hm
  have hp := Plan.foldlM_part Plan.context
    (g := fun x n => (t.node n).exit.foldl (Action.assigned r e) x) (fun _ _ _ => Plan.exit_context)
    hparts.exits
  have hq := Plan.foldlM_part Plan.context (f := addTransition t r e)
    (g := fun x u => u.actions.foldl (Action.assigned r e) x) (fun _ _ _ => Plan.addAll_context)
    hparts.transitions
  have hs := enterNodes_context hparts.entries
  simp only [declared, List.foldl_append, List.foldl_flatMap]
  rw [hs, hq, hp]

theorem initial_context (hm : initial t r e x h = .ok m) :
    m.context = (m.declared t []).foldl (Action.assigned r e) x := by
  obtain ⟨_, s, hs, rfl⟩ := enter_eq_ok_iff.mp hm
  simpa [declared, List.foldl_flatMap] using enterNodes_context hs

theorem exists_addTransition {p : Plan C} {u : Transition} :
    (∃ q, addTransition t r e p u = .ok q) ↔ ∀ a ∈ u.actions, a.Known r :=
  Plan.exists_addAll _

theorem exists_enterNode {p : Plan C} :
    (∃ q, enterNode t r e p n = .ok q) ↔ ∀ a ∈ (t.node n).entry, a.Known r := by
  rw [← Plan.exists_enter (t := t) (e := e) (p := p)]
  simp only [enterNode, bind_eq_ok, pure, Except.pure, Except.ok.injEq]
  constructor
  case mp => exact fun ⟨_, q, hq, _⟩ => ⟨q, hq⟩
  case mpr => exact fun ⟨q, hq⟩ => ⟨_, q, hq, rfl⟩

-- A microstep is taken if it leads to a legal configuration and all its actions are known.
theorem exists_take : (∃ m, take t r e c x h us = .ok m) ↔
    (next t c (historyAfter t c h us) us).isLegal t = true ∧
      (∀ n ∈ exitedBy t c us, ∀ a ∈ (t.node n).exit, a.Known r) ∧
      (∀ u ∈ us, ∀ a ∈ u.actions, a.Known r) ∧
      ∀ n ∈ enteredBy t c h us, ∀ a ∈ (t.node n).entry, a.Known r := by
  have hexits p := Plan.exists_foldlM (f := Plan.exit r e t) (fun _ _ => Plan.exists_exit)
    (exitedBy t c us) p
  have htransitions p := Plan.exists_foldlM (f := addTransition t r e)
    (fun _ _ => exists_addTransition) us p
  have hentries p := Plan.exists_foldlM (f := enterNode t r e) (fun _ _ => exists_enterNode)
    (enteredBy t c h us) p
  simp only [take_eq_ok_iff]
  constructor
  case mp =>
    intro ⟨m, hl, p, q, s, hparts, _⟩
    exact ⟨hl, (hexits _).mp ⟨p, hparts.exits⟩, (htransitions _).mp ⟨q, hparts.transitions⟩,
      (hentries _).mp ⟨s, hparts.entries⟩⟩
  case mpr =>
    intro ⟨hl, he, hu, hn⟩
    have ⟨p, hp⟩ := (hexits { context := x }).mpr he
    have ⟨q, hq⟩ := (htransitions { p with actions := [] }).mpr hu
    have ⟨s, hs⟩ := (hentries { context := q.context, raised := q.raised }).mpr hn
    exact ⟨_, hl, p, q, s, ⟨hp, hq, hs⟩, rfl⟩

end Microstep

end Statechart
