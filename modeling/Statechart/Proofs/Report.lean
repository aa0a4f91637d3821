import Statechart.Interpreter.Nested
import Statechart.Proofs.Operations
import Statechart.Proofs.Standards

-- What a child machine reports to its owner in the course of its life: its end, if it comes to one
-- by itself.

namespace Statechart

variable {C S A : Type} [ActorModel C S A]

namespace Macrostep

variable {σ : Type} {t : Tree} {r : Registry C S} {config : Config} {commit : Commit σ C}
  {p p' : Progress σ C} {shell : σ} {s : MachineState C} {trigger : Trigger}

omit [ActorModel C S A] in
theorem takes_isLegal {q q' : Progress σ C} {us : List Transition}
    (h : Takes t r commit q us q') : q'.state.configuration.isLegal t = true := by
  cases h with
  | intro hm => exact (Microstep.take_eq_ok hm).right.right

-- What goes wrong goes wrong before the machine is done.
omit [ActorModel C S A] in
theorem loop_error (hp : p.error = none) (h : (loop t r config commit p).outcome = .ok p') :
    (p'.error = none ∨ p'.state.done = false) ∧ p.microsteps ≤ p'.microsteps := by
  induction p using (round_wellFounded t r config commit).induction with
  | h p ih =>
    rcases loop_next h with hq | ⟨q, hr, h⟩ | ⟨q, us, ho, ⟨err, rfl⟩ | ⟨m, shell, err, _, _, rfl⟩⟩
    · cases hq with
      | done => exact ⟨.inl hp, le_rfl⟩
      | limited hd | failed hd => exact ⟨.inr hd, le_rfl⟩
      | resting => exact ⟨.inl hp, le_rfl⟩
      | raised hs => exact ⟨.inr hs.running, le_rfl⟩
    · have hle : p.microsteps ≤ q.microsteps := by
        rcases round_cases hr with ⟨hm, _⟩ | ⟨hm, _⟩ <;> omega
      have hq := ih q hr ((round_error hr).trans hp) h
      exact ⟨hq.left, hle.trans hq.right⟩
    · have hd := offers_running ho
      exact ⟨.inr hd, (offers_microsteps ho).left.ge⟩
    · have hd := offers_running ho
      exact ⟨.inr hd, (offers_microsteps ho).left.ge⟩

omit [ActorModel C S A] in
theorem run_error (hd : s.done = false)
    (h : (run t r config commit shell s trigger).outcome = .ok p') :
    p'.error = none ∨ p'.state.done = false := by
  rcases run_cases h with ⟨_, _, _, rfl⟩ | ⟨_, _, ⟨_, hs⟩, _⟩ | ⟨_, hst, h⟩
  · exact .inl rfl
  · exact .inr (by rw [hs]; exact hd)
  · exact (loop_error (started_unfailing hst).left h).left

omit [ActorModel C S A] in
theorem loop_isLegal (hp : p.state.configuration.isLegal t = true)
    (h : (loop t r config commit p).outcome = .ok p') :
    p'.state.configuration.isLegal t = true := by
  obtain ⟨q, hr, he⟩ := loop_ok h
  have hq : q.state.configuration.isLegal t = true :=
    rounds_preserve (J := fun _ s => s.configuration.isLegal t = true)
      (fun _ _ _ _ ht => takes_isLegal ht) hp hr
  cases he with
  | resting hs => exact hs ▸ hq
  | refused ho _ _ => exact congrArg MachineState.configuration (offers_state ho) ▸ hq

-- The initial microstep cannot be committed, which is an error, or some nodes are active from now
-- on.
omit [ActorModel C S A] in
theorem run_start_cases (h : (run t r config commit shell s .start).outcome = .ok p') :
    p'.microsteps = 0 ∧ p'.error ≠ none ∧ p'.state.configuration = s.configuration ∨
      p'.microsteps ≠ 0 ∧ p'.state.configuration.isLegal t = true := by
  rcases run_cases h with ⟨_, h, _⟩ | ⟨he, hm, ⟨_, hs⟩, _⟩ | ⟨q, hst, h⟩
  · contradiction
  · exact .inl ⟨hm, he, by rw [hs]⟩
  · cases hst with
    | start hi _ =>
      have hle : 0 < p'.microsteps := (loop_error rfl h).right
      exact .inr ⟨hle.ne', loop_isLegal (Microstep.initial_eq_ok hi).left h⟩

omit [ActorModel C S A] in
theorem run_event_isLegal {e : Event} (hs : s.configuration.isLegal t = true)
    (h : (run t r config commit shell s (.event e)).outcome = .ok p') :
    p'.state.configuration.isLegal t = true := by
  refine run_preserves (J := fun _ s => s.configuration.isLegal t = true)
    (fun _ _ _ _ ht => takes_isLegal ht) (fun hst => ?_) (fun hq _ => hq) hs h
  cases hst with
  | event _ _ ht => exact takes_isLegal ht

end Macrostep

-- A child reports how it ended. All else that it posts are events of its own.
def Post.isReport : Post → Bool
  | send _ => false
  | resolve _ | reject _ => true

def Post.reports (posts : List Post) : List Post := posts.filter Post.isReport

theorem Post.reports_append (posts posts' : List Post) :
    reports (posts ++ posts') = reports posts ++ reports posts' := List.filter_append ..

-- What decides about the life of a child: a macrostep that it ran, or its owner, who stopped it.
inductive Moment (C A : Type)
  | ran (trigger : Trigger) (p : Progress (Shell C A) C)
  | stopped

namespace Moment

-- The report that is due.
def report? (config : Config) : Moment C A → Option Post
  | ran _ p =>
    if p.state.done then some (.resolve (p.state.doneData.getD .null))
    else if config.errorPolicy = .fatal || p.state.configuration.isEmpty then
      p.error.map fun err => .reject (Interpreter.errorData err)
    else none
  | stopped => none

def isLast (config : Config) : Moment C A → Bool
  | stopped => true
  | ran trigger p => ((ran trigger p).report? config).isSome

variable {config : Config} {p : Progress (Shell C A) C}

omit [ActorModel C S A] in
theorem report_of_done (config : Config) (trigger : Trigger) (hd : p.state.done = true) :
    (ran trigger p).report? config = some (.resolve (p.state.doneData.getD .null)) := by
  simp [report?, hd]

omit [ActorModel C S A] in
theorem report_of_fatal {err : ExecutionError} (trigger : Trigger) (hd : p.state.done = false)
    (hf : (config.errorPolicy = .fatal || p.state.configuration.isEmpty) = true)
    (he : p.error = some err) :
    (ran trigger p).report? config = some (.reject (Interpreter.errorData err)) := by
  rw [report?, if_neg (by simp [hd]), if_pos hf, he]
  rfl

omit [ActorModel C S A] in
theorem report_of_none (trigger : Trigger) (hd : p.state.done = false) (h : p.error = none ∨
    (config.errorPolicy = .fatal || p.state.configuration.isEmpty) = false) :
    (ran trigger p).report? config = none := by
  rw [report?, if_neg (by simp [hd])]
  rcases h with he | hf
  · simp [he]
  · rw [if_neg (by simp [hf])]

omit [ActorModel C S A] in
theorem report_of_not_last {x : Moment C A} (h : x.isLast config = false) :
    x.report? config = none := by
  cases x with
  | ran => simpa [isLast] using h
  | stopped => cases h

omit [ActorModel C S A] in
theorem not_done_of_not_last {trigger : Trigger} (h : (ran trigger p).isLast config = false) :
    p.state.done = false := by
  by_contra hd
  simp [isLast, report_of_done config trigger (by simpa using hd)] at h

end Moment

namespace Shell

variable {r : Registry C S} {s : Shell C A} {env : Env} {st : Status}

-- While it is `st` and has an owner, nothing is reported.
def Standards.silent (st : Status) : Standards C A where
  entry _ := True
  post p := p.isReport = false
  error _ := True
  actor _ := True
  frame st' owned _ := st' = st ∧ owned = true

theorem Standards.silent_hold : (silent (C := C) (A := A) st).Hold r where
  entry _ := trivial
  sent _ := rfl
  failed _ _ _ := trivial
  overflowed _ := trivial
  limited _ _ := trivial
  guarded _ _ := trivial
  started _ _ _ := Turn.Keeps.trivial.imp fun _ _ _ _ => trivial
  settled := trivial
  sends _ _ _ := .trivial
  stops _ _ := .trivial
  polls _ _ := .trivial
  finishes _ := .trivial

omit [ActorModel C S A] in
theorem meets_silent : s.Meets (.silent st) ↔ s.status = st ∧ s.hasParent = true :=
  ⟨fun h => h.frame, fun h => ⟨fun _ _ => trivial, fun _ _ => trivial, h⟩⟩

end Shell

omit [ActorModel C S A] in
theorem Turn.Keeps.reports {α : Type} {Q : α → Prop} {x : Turn C α} {E : Entry C → Prop}
    (h : x.Keeps E (fun p => p.isReport = false) Q) : Post.reports x.posts = [] :=
  List.filter_eq_nil_iff.mpr fun _ hp => by simp [h.posts hp]

omit [ActorModel C S A] in
theorem Turn.reports_bind {α β : Type} {x : Turn C α} {f : α → Turn C β} {a : α}
    (h : x.outcome = .ok a) :
    Post.reports (x >>= f).posts = Post.reports x.posts ++ Post.reports (f a).posts := by
  rw [Turn.posts_bind h, Post.reports_append]

namespace Interpreter

variable {i j : Interpreter C S A} {env : Env} {err : ExecutionError} {changed : Bool}
  {trigger : Trigger} {st : Status}

-- The interpreter has become `j`, which is `st`, and its state is the same.
structure Leaves (st : Status) (i j : Interpreter C S A) : Prop where
  machine : j.machine = i.machine
  state : j.state = i.state
  shell : j.shell.Meets (.silent st)

theorem halt_reports (hi : i.shell.hasParent = true) (h : (i.halt env).outcome = .ok j) :
    Post.reports (i.halt env).posts = [] ∧ Leaves .stopped i j := by
  have hs : Shell.Meets (.silent .stopped) { i.shell with status := .stopped } :=
    Shell.meets_silent.mpr ⟨rfl, hi⟩
  have hk : (i.halt env).Keeps _ _ (Leaves .stopped i) :=
    (Shell.halt_keeps (Shell.Standards.silent_hold (r := i.machine.registry)) hs).bind
      fun _ hs => .pure ⟨rfl, rfl, hs⟩
  exact ⟨hk.reports, hk.value h⟩

theorem fail_reports (hi : i.shell.hasParent = true) (h : (i.fail env err).outcome = .ok j) :
    Post.reports (i.fail env err).posts = [.reject (errorData err)] ∧ Leaves .stopped i j := by
  rw [fail] at h ⊢
  obtain ⟨_, _, h⟩ := Turn.bind_eq_ok.mp h
  rw [Turn.reports_bind rfl]
  rw [if_pos hi] at h ⊢
  obtain ⟨_, _, h⟩ := Turn.bind_eq_ok.mp h
  obtain ⟨hr, hj⟩ := halt_reports (i := { i with shell.failure := some err }) hi h
  rw [Turn.reports_bind rfl, hr]
  exact ⟨rfl, hj.machine, hj.state, hj.shell⟩

theorem finish_reports (hi : i.shell.hasParent = true) (h : (i.finish env).outcome = .ok j) :
    Post.reports (i.finish env).posts = [.resolve (i.state.doneData.getD .null)] ∧
      Leaves .stopped i j := by
  simp only [finish, hi, if_true] at h ⊢
  obtain ⟨s, hs, h⟩ := Turn.bind_eq_ok.mp h
  obtain ⟨_, _, h⟩ := Turn.bind_eq_ok.mp h
  have hp : s.hasParent = true := by
    cases (Shell.callAll_outcome ..).symm.trans hs
    exact hi
  obtain ⟨hr, hj⟩ := halt_reports (i := { i with shell := s }) hp h
  refine ⟨?_, hj.machine, hj.state, hj.shell⟩
  rw [Turn.reports_bind hs, Turn.reports_bind rfl, hr, Shell.callAll_posts]
  rfl

theorem notify_reports (hi : i.shell.Meets (.silent .running)) :
    ∃ j, i.notify.outcome = .ok j ∧ Post.reports i.notify.posts = [] ∧ Leaves .running i j := by
  have hk := notify_meets (Shell.Standards.silent_hold (r := i.machine.registry)) ⟨rfl, hi⟩
  obtain ⟨s, hs, _⟩ := i.notify_ok
  exact ⟨_, hs, hk.reports, rfl, rfl, (hk.value hs).shell⟩

-- What is done at the end of a macrostep after which the interpreter goes on or has finished.
theorem settle_reports (hi : i.shell.Meets (.silent .running))
    (h : (i.settle env changed).outcome = .ok j) :
    if i.state.done then
      Post.reports (i.settle env changed).posts = [.resolve (i.state.doneData.getD .null)] ∧
        Leaves .stopped i j
    else Post.reports (i.settle env changed).posts = [] ∧ Leaves .running i j := by
  obtain ⟨k, hk, ho, hr⟩ : ∃ k, Leaves .running i k ∧
      (i.settle env changed).outcome = (if k.state.done then k.finish env else pure k).outcome ∧
      Post.reports (i.settle env changed).posts =
        Post.reports (if k.state.done then k.finish env else pure k).posts := by
    cases changed with
    | false => exact ⟨i, ⟨rfl, rfl, hi⟩, rfl, rfl⟩
    | true =>
      obtain ⟨k, hok, hr, hk⟩ := notify_reports hi
      refine ⟨k, hk, ?_, ?_⟩
      · change (i.notify >>= _).outcome = _
        rw [Turn.outcome_bind, hok]
        rfl
      · change Post.reports (i.notify >>= _).posts = _
        rw [Turn.reports_bind hok, hr]
        rfl
  rw [ho] at h
  rw [hr, ← hk.state]
  cases hd : k.state.done
  case false =>
    simp only [hd, Bool.false_eq_true, if_false] at h ⊢
    cases h
    exact ⟨rfl, hk⟩
  case true =>
    simp only [hd, if_true] at h ⊢
    obtain ⟨hreport, hj⟩ := finish_reports (Shell.meets_silent.mp hk.shell).right h
    exact ⟨hreport, hj.machine.trans hk.machine, hj.state.trans hk.state, hj.shell⟩

-- Until a macrostep has come to its end nothing is reported.
theorem macrostep_silent {p : Progress (Shell C A) C} (hi : i.shell.Meets (.silent .running))
    (hp : (Macrostep.run i.machine.tree i.machine.registry i.machine.config
      (commit env i.machine.registry) i.shell i.state trigger).outcome = .ok p) :
    ∃ s : Shell C A, s.Meets (.silent .running) ∧
      let k := { i with state := p.state, shell := s }
      let y := match p.error with
        | some err => if k.isFatal then k.fail env err else k.settle env p.changed
        | none => k.settle env p.changed
      (i.macrostep env trigger).outcome = y.outcome ∧
        Post.reports (i.macrostep env trigger).posts = Post.reports y.posts := by
  have hold : (Shell.Standards.silent (C := C) (A := A) .running).Hold i.machine.registry :=
    Shell.Standards.silent_hold
  have hrun : (Macrostep.run i.machine.tree i.machine.registry i.machine.config
      (commit env i.machine.registry) i.shell i.state trigger).Keeps _ _ _ :=
    Macrostep.run_meets hold.toHold (.inr fun _ => trivial) (commit_meets hold) hi
  have hguards : (p.shell.reportAll p.guardErrors).Keeps _ _ _ :=
    Shell.reportAll_keeps hold (fun _ _ => trivial) (hrun.value hp).shell
  obtain ⟨s₁, h₁, _⟩ := Shell.reportAll_ok p.guardErrors p.shell
  let s₂ := { s₁ with lastEvent := some trigger.toEvent, lastChanged := p.changed }
  have hs₁ := Shell.meets_silent.mp (hguards.value h₁)
  have hs₂ : s₂.Meets (.silent .running) := Shell.meets_silent.mpr hs₁
  have herror : (s₂.reportAll p.error.toList).Keeps _ _ _ :=
    Shell.reportAll_keeps hold (fun _ _ => trivial) hs₂
  obtain ⟨s₃, h₃, _⟩ := Shell.reportAll_ok p.error.toList s₂
  refine ⟨s₃, herror.value h₃, ?_, ?_⟩
  case refine_1 =>
    rw [macrostep, Turn.outcome_bind, hp]
    change (i.conclude env trigger p).outcome = _
    rw [conclude_eq, Turn.outcome_bind, h₁]
    change Turn.outcome (s₂.reportAll p.error.toList >>= _) = _
    rw [Turn.outcome_bind, h₃]
    rfl
  case refine_2 =>
    rw [macrostep, Turn.reports_bind hp, hrun.reports, conclude_eq, Turn.reports_bind h₁,
      hguards.reports]
    change Post.reports (s₂.reportAll p.error.toList >>= _).posts = _
    rw [Turn.reports_bind h₃, herror.reports]
    rfl

-- What is left of an interpreter of `m` after the moment `x`, in which it posted `posts`.
structure Outlives (m : Machine C S) (x : Moment C A) (posts : List Post)
    (j : Interpreter C S A) : Prop where
  reports : Post.reports posts = (x.report? m.config).toList
  machine : j.machine = m
  last : x.isLast m.config = true → j.shell.Meets (.silent .stopped)
  not_last : x.isLast m.config = false → j.shell.Meets (.silent .running)

-- It goes on after a macrostep if nothing is to be reported.
theorem macrostep_outlives {p : Progress (Shell C A) C} (hi : i.shell.Meets (.silent .running))
    (hd : i.state.done = false)
    (hp : (Macrostep.run i.machine.tree i.machine.registry i.machine.config
      (commit env i.machine.registry) i.shell i.state trigger).outcome = .ok p)
    (h : (i.macrostep env trigger).outcome = .ok j) :
    Outlives i.machine (.ran trigger p) (i.macrostep env trigger).posts j ∧ j.state = p.state := by
  obtain ⟨s, hs, ho, hr⟩ := macrostep_silent hi hp
  rw [ho] at h
  have hover := Macrostep.run_error hd hp
  have hsettle (hquiet : p.error = none ∨
        ({ i with state := p.state, shell := s } : Interpreter C S A).isFatal = false)
      (h : (settle env { i with state := p.state, shell := s } p.changed).outcome = .ok j)
      (hr : Post.reports (i.macrostep env trigger).posts =
        Post.reports (settle env { i with state := p.state, shell := s } p.changed).posts) :
      Outlives i.machine (.ran trigger p) (i.macrostep env trigger).posts j ∧
        j.state = p.state := by
    have hreports := settle_reports hs h
    cases hdone : p.state.done with
    | false =>
      rw [if_neg (by simp [hdone])] at hreports
      obtain ⟨hnone, hj⟩ := hreports
      have hx := Moment.report_of_none trigger hdone hquiet
      refine ⟨⟨hr.trans (by rw [hnone, hx]; rfl), hj.machine, ?_, fun _ => hj.shell⟩, hj.state⟩
      simp [Moment.isLast, hx]
    | true =>
      rw [if_pos hdone] at hreports
      obtain ⟨hresolve, hj⟩ := hreports
      have hx := Moment.report_of_done i.machine.config trigger hdone
      refine ⟨⟨hr.trans (by rw [hresolve, hx]; rfl), hj.machine, fun _ => hj.shell, ?_⟩, hj.state⟩
      simp [Moment.isLast, hx]
  cases herr : p.error with
  | none =>
    rw [herr] at h hr
    exact hsettle (.inl herr) h hr
  | some err =>
    rw [herr] at h hr
    dsimp only at h hr
    split at h
    case isFalse hf =>
      rw [if_neg hf] at hr
      exact hsettle (.inr (by simpa using hf)) h hr
    case isTrue hf =>
      rw [if_pos hf] at hr
      have hdone := hover.resolve_left (by simp [herr])
      obtain ⟨hreject, hj⟩ := fail_reports (Shell.meets_silent.mp hs).right h
      have hx := Moment.report_of_fatal trigger hdone hf herr
      refine ⟨⟨hr.trans (by rw [hreject, hx]; rfl), hj.machine, fun _ => hj.shell, ?_⟩, hj.state⟩
      simp [Moment.isLast, hx]

theorem stop_outlives (hi : i.shell.hasParent = true) (hs : i.shell.status ≠ .stopped)
    (h : (i.stop env).outcome = .ok j) : Outlives i.machine .stopped (i.stop env).posts j := by
  have hold : (Shell.Standards.silent (C := C) (A := A) i.shell.status).Hold i.machine.registry :=
    Shell.Standards.silent_hold
  have hmeets : i.shell.Meets (.silent i.shell.status) := Shell.meets_silent.mpr ⟨rfl, hi⟩
  have hhalt {y : Turn C (Shell C A)} {x : C}
      (hy : y.Keeps (fun _ => True) (fun p => p.isReport = false)
        (Shell.Meets (.silent i.shell.status)))
      (h : (y >>= fun s => halt env { i with state.context := x, shell := s }).outcome = .ok j) :
      Outlives i.machine .stopped
        (y >>= fun s => halt env { i with state.context := x, shell := s }).posts j := by
    obtain ⟨s, hs, h⟩ := Turn.bind_eq_ok.mp h
    obtain ⟨hr, hj⟩ := halt_reports (Shell.meets_silent.mp (hy.value hs)).right h
    refine ⟨?_, hj.machine, fun _ => hj.shell, nofun⟩
    rw [Turn.reports_bind hs, hy.reports, hr]
    rfl
  rw [stop] at h ⊢
  split at h
  case h_1 hst => exact absurd hst hs
  case h_2 =>
    cases h
    exact ⟨rfl, rfl, fun _ => Shell.meets_silent.mpr ⟨rfl, hi⟩, nofun⟩
  case h_3 =>
    dsimp only at h ⊢
    split at h
    case h_1 =>
      exact hhalt (Shell.performEach_keeps hold (fun _ _ => .inr fun _ => trivial) hmeets) h
    case h_2 => exact hhalt (Shell.report_keeps hold trivial hmeets) h

end Interpreter

end Statechart
