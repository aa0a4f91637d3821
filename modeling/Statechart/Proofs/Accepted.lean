import Statechart.Definition.Build
import Statechart.Proofs.Bracketing
import Statechart.Proofs.Descendants
import Statechart.Proofs.Standards

-- What the names in a definition are checked for: when a machine that was accepted runs, no error
-- arises because a name is missing, in itself or in the machines that it owns.

namespace Statechart

-- The machine was built from a definition.
def Machine.Accepted {C S : Type} (m : Machine C S) : Prop :=
  ∃ machineId root, build machineId (some root) m.registry (some m.context) m.config = .ok m

theorem Machine.Accepted.provides {C S : Type} {m : Machine C S} (h : m.Accepted) :
    m.tree.WellFormed ∧ m.registry.Provides m.tree := by
  obtain ⟨_, _, hb⟩ := h
  obtain ⟨ht, _, hr⟩ := build_eq_ok hb
  exact ⟨Definition.State.build_wellFormed ht, Definition.provides_of_referenceProblems hr⟩

-- The machine was accepted, and so were the machines that it can start, those that they can start,
-- and so on.
def AllAccepted {C : Type} : (n : Nat) → NestedMachine C n → Prop
  | 0, m => m.Accepted
  | n + 1, m => m.Accepted ∧ ∀ name (c : NestedMachine C n) context,
      m.registry.services.find? name = some (.machine c context) → AllAccepted n c

-- These are the machines that can be started.
inductive Includes {C : Type} {n : Nat} (top : NestedMachine C n) :
    {k : Nat} → NestedMachine C k → Prop
  | self : Includes top top
  | child {k} {m : NestedMachine C (k + 1)} {name : String} {c : NestedMachine C k}
      {context : Option (C → Event → C)} : Includes top m →
      m.registry.services.find? name = some (.machine c context) → Includes top c

-- No name is missing; and when a guard fails, it is registered and says so itself.
def ExecutionError.Founded {C : Type} {n : Nat} (top : NestedMachine C n) : ExecutionError → Prop
  | unknownAction _ | unknownService _ | unknownDelay _ => False
  | guard name event cause => ∃ (k : Nat) (m : NestedMachine C k)
      (test : C → Event → Except GuardError Bool) (x : C) (e : Event), Includes top m ∧
        m.registry.guards.find? name = some test ∧ test x e = .error cause ∧ e.name = event
  | action .. | delayOverflow _ | microstepLimit .. => True

def Entry.Founded {C : Type} {n : Nat} (top : NestedMachine C n) (e : Entry C) : Prop :=
  ∀ err, e.error? = some err → err.Founded top

-- All errors that the turn journals are founded, wherever it breaks off.
abbrev Turn.Founded {C α : Type} {n : Nat} (top : NestedMachine C n) (x : Turn C α) : Prop :=
  ∀ e ∈ x.entries, e.Founded top

variable {C : Type} {n k l : Nat} {top : NestedMachine C n}

theorem Includes.accepted {m : NestedMachine C k} (h : Includes top m) (ht : AllAccepted n top) :
    m.Accepted := by
  have hall : AllAccepted k m := by
    induction h with
    | self => exact ht
    | child _ hc ih => exact ih.right _ _ _ hc
  cases k with
  | zero => exact hall
  | succ k => exact hall.left

-- Nothing is demanded of an interpreter but that its errors are founded.
def Shell.Standards.founded {A : Type} (top : NestedMachine C n) (actor : A → Prop) :
    Shell.Standards C A where
  entry := Entry.Founded top
  post _ := True
  error := ExecutionError.Founded top
  actor := actor
  frame _ _ failure := ∀ err ∈ failure, err.Founded top

-- The same for child machines, whichever of the machines in `L` they run.
structure ChildModel.Keeps {M I : Type} [ChildModel C M I] (E : Entry C → Prop) (L : M → Prop)
    (P : I → Prop) : Prop where
  launch {m : M} (env : Env) (id : String) (x : Option C) : L m →
    (ChildModel.launch env m id x : Turn C I).Keeps E (fun _ => True) P
  send {i : I} (env : Env) (e : Event) : P i →
    (ChildModel.send env e i : Turn C I).Keeps E (fun _ => True) P
  stop {i : I} (env : Env) : P i → (ChildModel.stop env i : Turn C I).Keeps E (fun _ => True) P
  poll {i : I} (env : Env) : P i → (ChildModel.poll env i : Turn C I).Keeps E (fun _ => True) P
  finishTasks {i : I} : P i →
    (ChildModel.finishTasks i : Turn C I).Keeps E (fun _ => True) P

namespace Actor

variable {M I : Type} [ChildModel C M I] {E : Entry C → Prop} {L : M → Prop} {P : I → Prop}
  {a : Actor I} {env : Env}

theorem sound_machine {i : I} (hi : P i) : (machine i).Sound P := by
  rintro _ ⟨⟩
  exact hi

theorem sound_of_started {o : Except ActionError (Actor I)}
    (h : ∀ i, o ≠ .ok (machine i)) : ∀ a, o = .ok a → a.Sound P := by
  rintro _ ho i rfl
  exact absurd ho (h i)

theorem start_keeps {logic : Service C M} {q : StartRequest C} (hk : ChildModel.Keeps E L P)
    (hE : ∀ e : Entry C, e.error? = none → E e) (hl : ∀ m x, logic = .machine m x → L m) :
    (ActorModel.start env logic q).Keeps E (fun _ => True)
      fun o => ∀ a : Actor I, o = .ok a → a.Sound P := by
  have hposted {ps : List Post} : ∀ p ∈ ps, (fun _ : Post => True) p := fun _ _ => trivial
  have hsettled : ∀ a : Actor I, Except.ok settled = (.ok a : Except ActionError _) → a.Sound P :=
    sound_of_started nofun
  have hmachine {i : I} (hi : P i) :
      ∀ a : Actor I, Except.ok (machine i) = (.ok a : Except ActionError _) → a.Sound P := by
    rintro _ ⟨⟩
    exact sound_machine hi
  change (logic.start env q).Keeps E _ _
  unfold Service.start
  split
  case h_1 =>
    exact (Turn.Keeps.note (hE _ rfl)).bind fun _ _ => (Turn.Keeps.post trivial).bind fun _ _ =>
      .pure hsettled
  case h_2 =>
    rw [Service.startFuture]
    split
    · exact (Turn.Keeps.note (hE _ rfl)).bind fun _ _ => .pure (sound_of_started nofun)
    · exact (Turn.Keeps.note (hE _ rfl)).bind fun _ _ => (Turn.Keeps.post trivial).bind fun _ _ =>
        .pure hsettled
  case h_3 =>
    exact (Turn.Keeps.note (hE _ rfl)).bind fun _ _ => (Turn.Keeps.postAll hposted).bind fun _ _ =>
      .pure hsettled
  case h_4 start =>
    refine (Turn.Keeps.note (hE _ rfl)).bind fun _ _ => (Turn.Keeps.postAll hposted).bind fun _ _ =>
      .pure (sound_of_started fun i hi => ?_)
    cases ho : (start q.context).outcome <;> simp [ho, Except.map] at hi
  case h_5 m =>
    exact (hk.launch env _ none (hl m none rfl)).bind fun _ hi => .pure (hmachine hi)
  case h_6 m x =>
    exact (Turn.Keeps.note (hE _ rfl)).bind fun _ _ =>
      (hk.launch env _ _ (hl m (some x) rfl)).bind fun _ hi => .pure (hmachine hi)

theorem send_keeps (hk : ChildModel.Keeps E L P) (hE : ∀ e : Entry C, e.error? = none → E e)
    (e : Event) (ha : a.Sound P) :
    (ActorModel.send env e a).Keeps E (fun _ => True) (Sound P) := by
  change (Actor.send env e a).Keeps E _ _
  unfold Actor.send
  split
  case h_1 =>
    exact (Turn.Keeps.note (hE _ rfl)).bind fun _ _ =>
      (Turn.Keeps.postAll fun _ _ => trivial).bind fun _ _ => .pure nofun
  case h_2 child => exact (hk.send env e (ha child rfl)).bind fun _ hi => .pure (sound_machine hi)
  case h_3 => exact .pure ha

theorem stop_keeps (hk : ChildModel.Keeps E L P) (hE : ∀ e : Entry C, e.error? = none → E e)
    (ha : a.Sound P) : (ActorModel.stop env a).Keeps E (fun _ => True) (Sound P) := by
  change (Actor.stop env a).Keeps E _ _
  unfold Actor.stop
  split
  case h_1 =>
    split
    · exact (Turn.Keeps.note (hE _ rfl)).bind fun _ _ =>
        (Turn.Keeps.postAll fun _ _ => trivial).bind fun _ _ => .pure nofun
    · exact .pure nofun
  case h_2 => exact .pure nofun
  case h_3 child => exact (hk.stop env (ha child rfl)).bind fun _ hi => .pure (sound_machine hi)
  case h_4 => exact .pure nofun

theorem poll_keeps (hk : ChildModel.Keeps E L P) (ha : a.Sound P) :
    (ActorModel.poll env a).Keeps E (fun _ => True) (Sound P) := by
  change (Actor.poll env a).Keeps E _ _
  unfold Actor.poll
  split
  case h_1 child => exact (hk.poll env (ha child rfl)).bind fun _ hi => .pure (sound_machine hi)
  case h_2 => exact .pure ha

theorem finishTasks_keeps (hk : ChildModel.Keeps E L P) (ha : a.Sound P) :
    (ActorModel.finishTasks a).Keeps E (fun _ => True) (Sound P) := by
  change (Actor.finishTasks a).Keeps E _ _
  unfold Actor.finishTasks
  split
  case h_1 => exact (Turn.Keeps.postAll fun _ _ => trivial).bind fun _ _ => .pure nofun
  case h_2 child => exact (hk.finishTasks (ha child rfl)).bind fun _ hi => .pure (sound_machine hi)
  case h_3 => exact .pure ha

end Actor

-- An interpreter of a machine that `top` includes, all of whose errors were founded so far.
def Interpreter.Founded (top : NestedMachine C n) (P : Child C k → Prop)
    (i : NestedInterpreter C k) : Prop :=
  ∃ (m : NestedMachine C k) (x : C), Includes top m ∧
    i.Meets (.founded top (Actor.Sound P)) (m.withContext x)

def Child.Founded (top : NestedMachine C n) : (k : Nat) → Child C k → Prop
  | 0, _ => False
  | k + 1, i => Interpreter.Founded top (Child.Founded top k) (i : NestedInterpreter C k)

-- What is demanded of interpreters at level `k`.
def NestedInterpreter.standards (top : NestedMachine C n) (k : Nat) :
    Shell.Standards C (Actor (Child C k)) :=
  .founded top (Actor.Sound (Child.Founded top k))

theorem NestedInterpreter.standards_lax (top : NestedMachine C n) (k : Nat) :
    (standards top k).Lax where
  post _ := trivial
  status h := h
  failure _ herr _ he := Option.some.inj he ▸ herr

def ChildMachine.Included (top : NestedMachine C n) : (k : Nat) → ChildMachine C k → Prop
  | 0, _ => False
  | k + 1, m => Includes top (m : NestedMachine C k)

namespace Child

variable {m : NestedMachine C k}

theorem included_of_service {name : String} {c : ChildMachine C k} {context}
    (hm : Includes top m) (hc : m.registry.services.find? name = some (.machine c context)) :
    ChildMachine.Included top k c := by
  cases k with
  | zero => exact c.elim
  | succ k => exact hm.child hc

theorem hold_of_keeps (hm : Includes top m)
    (hk : ChildModel.Keeps (Entry.Founded top) (ChildMachine.Included top k)
      (Child.Founded top k)) :
    (NestedInterpreter.standards top k).Hold m.registry := by
  have hplain (e : Entry C) (he : e.error? = none) : e.Founded top := by simp [Entry.Founded, he]
  exact {
    entry := id
    sent := fun _ => trivial
    failed := fun _ _ _ => trivial
    overflowed := fun _ => trivial
    limited := fun _ _ => trivial
    guarded := fun hg hx => ⟨k, m, _, _, _, hm, hg, hx, rfl⟩
    started := fun _ _ hl => Actor.start_keeps hk hplain fun c x hc =>
      included_of_service hm (hc ▸ hl)
    settled := nofun
    sends := fun _ e => Actor.send_keeps hk hplain e
    stops := fun _ => Actor.stop_keeps hk hplain
    polls := fun _ => Actor.poll_keeps hk
    finishes := Actor.finishTasks_keeps hk }

-- What meets the standards of its machine is founded.
theorem founded_of_meets {i : NestedInterpreter C k} {y : Turn C (NestedInterpreter C k)}
    (ht : AllAccepted n top) (hk : ChildModel.Keeps (Entry.Founded top)
      (ChildMachine.Included top k) (Child.Founded top k))
    (hi : i.Founded top (Child.Founded top k))
    (hy : ∀ m : NestedMachine C k, (NestedInterpreter.standards top k).Hold m.registry →
      (NestedInterpreter.standards top k).Grants (m.registry.Provides m.tree) →
        i.Meets (NestedInterpreter.standards top k) m →
          y.Keeps (Entry.Founded top) (fun _ => True)
            (Interpreter.Meets (NestedInterpreter.standards top k) m)) :
    y.Keeps (Entry.Founded top) (fun _ => True)
      (Interpreter.Founded top (Child.Founded top k)) := by
  obtain ⟨m, x, hm, hi⟩ := hi
  have hold : (NestedInterpreter.standards top k).Hold (m.withContext x).registry :=
    hold_of_keeps (m := m) hm hk
  exact (hy _ hold (.inl (hm.accepted ht).provides.right) hi).imp fun _ hj => ⟨m, x, hm, hj⟩

-- By induction on how deep machines own machines.
theorem founded_keeps (ht : AllAccepted n top) (k : Nat) :
    ChildModel.Keeps (Entry.Founded top) (ChildMachine.Included top k) (Child.Founded top k) := by
  induction k with
  | zero =>
    exact ⟨@fun m => m.elim, @fun i => i.elim, @fun i => i.elim, @fun i => i.elim,
      @fun i => i.elim⟩
  | succ k ih =>
    have hlax := NestedInterpreter.standards_lax top k
    exact {
      launch := fun {m} env id x hm => by
        let i : NestedInterpreter C k :=
          .spawned (Machine.withContext m (x.getD (Machine.context m))) id
        have hi : i.Founded top (Child.Founded top k) :=
          ⟨m, _, hm, rfl, List.forall_mem_nil _, nofun, nofun⟩
        have hx : ((x.map (Machine.withContext m)).getD m) =
            Machine.withContext m (x.getD (Machine.context m)) := by
          cases x <;> rfl
        change ((Interpreter.spawned ((x.map (Machine.withContext m)).getD m) id).start env).Keeps
          _ _ _
        rw [hx]
        exact founded_of_meets ht ih hi fun m hold hp => Interpreter.start_meets hold hlax hp
      send := fun env e hi =>
        founded_of_meets ht ih hi fun m hold hp => Interpreter.send_meets hold hlax hp
      stop := fun env hi =>
        founded_of_meets ht ih hi fun m hold hp => Interpreter.stop_meets hold hlax hp
      poll := fun env hi =>
        founded_of_meets ht ih hi fun m hold hp => Interpreter.poll_meets hold hlax hp
      finishTasks := fun hi =>
        founded_of_meets ht ih hi fun m hold _ => Interpreter.finishTasks_meets hold }

end Child

section Exits

variable {S A : Type} [ActorModel C S A] {t : Tree} {r : Registry C S} {c : Configuration} {x : C}
  {h : History} {e : Event} {name : String} {run : C → Event → EffectPlan} {s s' : Shell C A}
  {actions : List Planned} {env : Env} {i j : Interpreter C S A} {p : NodeIndex}

omit [ActorModel C S A] in
theorem Microstep.effect_mem_exitAll (wf : t.WellFormed) {step : Microstep C} (hp : p ∈ c)
    (ha : .named name ∈ (t.node p).exit) (hr : r.actions.find? name = some (.effect run))
    (hm : exitAll t r e c x h = .ok step) : .effect name ∈ step.actions := by
  obtain ⟨q, hq, hm⟩ := bind_eq_ok.mp hm
  cases hm
  refine List.mem_append_left _ (List.mem_append_left _ ?_)
  exact Plan.mem_of_foldlM (f := Plan.exit r e t) (fun _ _ _ => Plan.exit_extends)
    (fun _ _ => Plan.effect_mem_exit ha hr) ((mem_deepestFirst wf).mpr hp) hq

-- Whatever fails, every effect is run.
theorem Shell.effect_mem_performEach (hr : r.actions.find? name = some (.effect run))
    (ha : .effect name ∈ actions) (h : (s.performEach env r x e actions).outcome = .ok s') :
    .effect name e x ∈ (s.performEach env r x e actions).entries := by
  induction actions generalizing s with
  | nil => cases ha
  | cons a rest ih =>
    obtain ⟨s₁, h₁, h⟩ := Turn.bind_eq_ok.mp h
    rw [performEach, List.foldlM_cons]
    rcases List.mem_cons.mp ha with rfl | ha
    · refine Turn.mem_entries_bind.mpr (.inl (Turn.mem_entries_bind.mpr (.inl ?_)))
      simp only [perform, hr]
      exact Turn.mem_entries_bind.mpr (.inl (List.mem_singleton_self _))
    · exact Turn.mem_entries_bind.mpr (.inr ⟨s₁, h₁, ih ha h⟩)

theorem Interpreter.effect_mem_stop (wf : i.machine.tree.WellFormed)
    (hi : i.shell.status = .running) (hp : p ∈ i.state.configuration)
    (ha : .named name ∈ (i.machine.tree.node p).exit)
    (hr : i.machine.registry.actions.find? name = some (.effect run)) {step : Microstep C}
    (hm : Microstep.exitAll i.machine.tree i.machine.registry .stop i.state.configuration
      i.state.context i.state.history = .ok step) (h : (i.stop env).outcome = .ok j) :
    .effect name .stop step.context ∈ (i.stop env).entries := by
  simp only [stop, hi, hm] at h ⊢
  obtain ⟨s, hs, _⟩ := Turn.bind_eq_ok.mp h
  have hstep := Microstep.effect_mem_exitAll wf hp ha hr hm
  exact Turn.mem_entries_bind.mpr (.inl (Shell.effect_mem_performEach hr hstep hs))

end Exits

-- No microstep fails because a name is missing, whatever state the machine is in.
structure Machine.Plannable {S : Type} (m : Machine C S) : Prop where
  take {e : Event} {c : Configuration} {x : C} {h : History} {us : List Transition}
    {err : ExecutionError} : (∀ u ∈ us, ∃ p, u ∈ (m.tree.node p).transitions) →
      Microstep.take m.tree m.registry e c x h us ≠ .error (.failed err)
  initial {e : Event} {x : C} {h : History} {err : ExecutionError} :
    Microstep.initial m.tree m.registry e x h ≠ .error (.failed err)
  exitAll (e : Event) (c : Configuration) (x : C) (h : History) :
    ∃ step, Microstep.exitAll m.tree m.registry e c x h = .ok step ∧ step.Known m.registry
  resume (e : Event) (c : Configuration) (x : C) :
    ∃ actions, Microstep.resume m.tree m.registry e c x = .ok actions ∧
      ∀ a ∈ actions, a.Known m.registry

theorem Registry.Provides.plannable {S : Type} {m : Machine C S}
    (hp : m.registry.Provides m.tree) : m.Plannable where
  take hus h := by
    rcases Microstep.take_known hp hus with ⟨_, hm, _⟩ | hm
    · cases h.symm.trans hm
    · cases h.symm.trans hm
  initial h := by
    rcases Microstep.initial_known hp with ⟨_, hm, _⟩ | hm
    · cases h.symm.trans hm
    · cases h.symm.trans hm
  exitAll _ _ _ _ := Microstep.exitAll_known hp
  resume _ _ _ := Microstep.resume_known hp

-- Whatever is done next with the interpreter, all errors that it knows of, that are reported and
-- that are warned about are founded, whether they are its own or those of its child machines.
structure Interpreter.Reliable (i : NestedInterpreter C n) : Prop where
  lastError {err : ExecutionError} : i.shell.lastError = some err → err.Founded i.machine
  failure {err : ExecutionError} : i.shell.failure = some err → err.Founded i.machine
  start (env : Env) : (i.start env).Founded i.machine
  send (env : Env) (e : Event) : (i.send env e).Founded i.machine
  poll (env : Env) : (i.poll env).Founded i.machine
  finishTasks : i.finishTasks.Founded i.machine
  stop (env : Env) : (i.stop env).Founded i.machine
  restore (env : Env) (c : Checkpoint C) : (i.restore env c).Founded i.machine
  -- a checkpoint that is in order can be resumed
  resumption {c : Checkpoint C} {s : MachineState C} : i.shell.status = .notStarted →
    c.state i.machine.tree = .ok s → ∃ actions, i.resumption c = .ok (s, actions)
  -- every effect among the exit actions of the active nodes is run
  exits {env : Env} {j : NestedInterpreter C n} {p : NodeIndex} {name : String}
    {run : C → Event → EffectPlan} : i.shell.status = .running →
      (i.stop env).outcome = .ok j → p ∈ i.state.configuration →
        .named name ∈ (i.machine.tree.node p).exit →
          i.machine.registry.actions.find? name = some (.effect run) →
            ∃ x, .effect name .stop x ∈ (i.stop env).entries

namespace AllAccepted

variable {i j : NestedInterpreter C n} {env : Env}

theorem provides (h : AllAccepted n top) : top.tree.WellFormed ∧ top.registry.Provides top.tree :=
  (Includes.self.accepted h).provides

theorem hold (h : AllAccepted n top) :
    (NestedInterpreter.standards top n).Hold top.registry :=
  Child.hold_of_keeps .self (Child.founded_keeps h n)

theorem grants (h : AllAccepted n top) : (NestedInterpreter.standards top n).Grants
    (top.registry.Provides top.tree) := .inl h.provides.right

-- Whatever is done with an interpreter, its errors stay founded.
theorem meets (h : AllAccepted n i.machine) (hi : i.Lives) :
    i.Meets (NestedInterpreter.standards i.machine n) i.machine := by
  induction hi with
  | new => exact ⟨rfl, List.forall_mem_nil _, nofun, nofun⟩
  | spawned => exact ⟨rfl, List.forall_mem_nil _, nofun, nofun⟩
  | @operate env i j _ ho ih =>
    obtain ⟨hm, _⟩ := ho.becomes
    rw [hm] at h ⊢
    have hi := ih h
    have hlax := NestedInterpreter.standards_lax i.machine n
    cases ho with
    | withId | subscribe | unsubscribe | onError | onDone | post =>
      exact ⟨rfl, hi.shell.actors, hi.shell.lastError, hi.shell.frame⟩
    | start hj => exact (Interpreter.start_meets h.hold hlax h.grants hi).value hj
    | send hj => exact (Interpreter.send_meets h.hold hlax h.grants hi).value hj
    | poll hj => exact (Interpreter.poll_meets h.hold hlax h.grants hi).value hj
    | finishTasks hj => exact (Interpreter.finishTasks_meets h.hold hi).value hj
    | stop hj => exact (Interpreter.stop_meets h.hold hlax h.grants hi).value hj
    | restore hj => exact (Interpreter.restore_meets h.hold hlax h.grants hi).value hj j rfl

theorem reliable (h : AllAccepted n i.machine) (hi : i.Lives) : i.Reliable := by
  have hmeets := h.meets hi
  have hold := h.hold
  have hlax := NestedInterpreter.standards_lax i.machine n
  have ht := h.grants
  obtain ⟨wf, hp⟩ := h.provides
  exact {
    lastError := hmeets.shell.lastError _
    failure := hmeets.shell.frame _
    start := fun _ _ => (Interpreter.start_meets hold hlax ht hmeets).entries
    send := fun _ _ _ => (Interpreter.send_meets hold hlax ht hmeets).entries
    poll := fun _ _ => (Interpreter.poll_meets hold hlax ht hmeets).entries
    finishTasks := fun _ => (Interpreter.finishTasks_meets hold hmeets).entries
    stop := fun _ _ => (Interpreter.stop_meets hold hlax ht hmeets).entries
    restore := fun _ _ _ => (Interpreter.restore_meets hold hlax ht hmeets).entries
    resumption := fun {c s} hn hs => by
      obtain ⟨actions, hr, _⟩ := Microstep.resume_known (e := .init) (c := s.configuration)
        (x := s.context) hp
      refine ⟨actions, ?_⟩
      rw [Interpreter.resumption, if_neg (not_not_intro hn)]
      refine Microstep.bind_eq_ok.mpr ⟨s, hs, Microstep.bind_eq_ok.mpr ⟨actions, ?_, rfl⟩⟩
      rw [hr]
      rfl
    exits := fun {env j p name run} hr hj hmem ha hf => by
      obtain ⟨step, hm, _⟩ := Microstep.exitAll_known (e := .stop) (c := i.state.configuration)
        (x := i.state.context) (h := i.state.history) hp
      exact ⟨_, Interpreter.effect_mem_stop wf hr hmem ha hf hm hj⟩ }

-- However a machine that was accepted is run, by itself or by an interpreter, and whichever
-- machines it owns then: no error ever says that a name is missing.
theorem founded {m : NestedMachine C n} (h : AllAccepted n m) :
    m.Plannable ∧
    (∀ s trigger, (m.run s trigger).Founded m ∧
      ∀ step err, (m.run s trigger).outcome = .ok step → step.error = some err → err.Founded m) ∧
    ∀ i : NestedInterpreter C n, i.machine = m → i.Lives → i.Reliable := by
  refine ⟨h.provides.right.plannable, fun s trigger => ?_, ?_⟩
  · have hrun : (m.run s trigger).Keeps _ _ _ :=
      Machine.run_meets h.hold.toHold (.inl h.provides.right)
    exact ⟨fun _ => hrun.entries, fun step err hstep => hrun.value hstep err⟩
  · rintro i rfl hi
    exact h.reliable hi

end AllAccepted

-- A door that is opened to guests in the daytime, and that does not stay open.
def door : Definition.State :=
  .mk { key := "m", initial := some "closed" } [
    .mk {
      key := "closed"
      transitions := [(.event "KNOCK", {
        targets := ["open"]
        guard := some (.named "isDay")
        actions := [.named "greet"] })] } [],
    .mk {
      key := "open"
      entry := [.spawn "loader" "guest"]
      exit := [.named "farewell"]
      transitions := [(.after (.named "patience"), { targets := ["closed"] })] } []]

def doorTree : Tree := ((Definition.Layout.ofState "m" door).lower "m").value

theorem door_build : door.build "m" = .ok doorTree :=
  Definition.State.build_of_problems (by decide +kernel)

def doorMachine : NestedMachine Unit 1 where
  tree := doorTree
  registry := {
    guards := .ofList [("isDay", fun _ e =>
      if e.data = .null then .error ⟨"no clock"⟩ else .ok (e.data = .str "day"))]
    actions := .ofList [("greet", .effect fun _ _ => {}), ("farewell", .effect fun _ _ => {})]
    services := .ofList [("loader", .machine Interpreter.loaderMachine none)]
    delays := .ofList [("patience", fun _ _ => .ofMillis 1000)] }
  context := ()

theorem accepted_of_build {S : Type} {m : Machine C S} {machineId : String}
    {root : Definition.State} (hb : root.build machineId = .ok m.tree)
    (hr : Definition.referenceProblems m.registry m.tree = []) : m.Accepted := by
  refine ⟨machineId, root, ?_⟩
  simp [Machine.build, hb, Machine.ofTree, Definition.check, hr, bind, Except.bind, pure,
    Except.pure]

theorem doorMachine_accepted : AllAccepted 1 doorMachine := by
  refine ⟨accepted_of_build door_build (by decide +kernel), fun name c context hc => ?_⟩
  have hservice : (name, Service.machine c context) =
      ("loader", .machine Interpreter.loaderMachine none) :=
    List.mem_singleton.mp (SortedMap.find?_eq_some.mp hc)
  cases hservice
  exact accepted_of_build Interpreter.loader_build (by decide +kernel)

theorem AllAccepted.founded_door : AllAccepted 1 doorMachine ∧ doorMachine.Plannable ∧
    (Interpreter.new doorMachine : NestedInterpreter Unit 1).Reliable := by
  obtain ⟨hp, _, hi⟩ := founded doorMachine_accepted
  exact ⟨doorMachine_accepted, hp, hi _ rfl .new⟩

end Statechart
