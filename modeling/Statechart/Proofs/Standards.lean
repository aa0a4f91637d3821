import Statechart.Proofs.Course
import Statechart.Proofs.Keeping

-- What can be said of everything that an interpreter journals and posts, and of what becomes of it,
-- if it can be said of its actors.

namespace Statechart

-- Standards for interpreters also demand something of their actors, and of that which no action
-- changes.
structure Shell.Standards (C A : Type) extends Statechart.Standards C where
  actor : A → Prop
  frame : Status → Bool → Option ExecutionError → Prop

section Shell

variable {C S A : Type} [ActorModel C S A]

-- Actors meet the standards as soon as they are started.
structure Shell.Standards.Hold (R : Shell.Standards C A) (r : Registry C S) : Prop
    extends Statechart.Standards.Hold R.toStandards r where
  started {name : String} {logic : S} (env : Env) (q : StartRequest C) :
    r.services.find? name = some logic → (ActorModel.start env logic q).Keeps R.entry
      (fun _ => True) fun o => ∀ a, o = .ok a → R.actor a
  settled : R.actor (ActorModel.settled C)
  sends {a : A} (env : Env) (e : Event) : R.actor a →
    (ActorModel.send env e a).Keeps R.entry (fun _ => True) R.actor
  stops {a : A} (env : Env) : R.actor a →
    (ActorModel.stop env a).Keeps R.entry (fun _ => True) R.actor
  polls {a : A} (env : Env) : R.actor a →
    (ActorModel.poll env a).Keeps R.entry (fun _ => True) R.actor
  finishes {a : A} : R.actor a →
    (ActorModel.finishTasks a).Keeps R.entry (fun _ => True) R.actor

namespace Shell

-- The shell meets the standards.
structure Meets (R : Standards C A) (s : Shell C A) : Prop where
  actors : ∀ x ∈ s.actors, R.actor x.actor
  lastError : ∀ err, s.lastError = some err → R.error err
  frame : R.frame s.status s.hasParent s.failure

variable {R : Standards C A} {r : Registry C S} {env : Env} {s s' : Shell C A} {x : C} {e : Event}
  {a : Planned} {actions : List Planned} {id : String}

-- What a turn makes of the shell, and the failure that it ends with.
abbrev MeetsFailing (R : Standards C A) (y : Shell C A × Option ExecutionError) : Prop :=
  y.1.Meets R ∧ ∀ err, y.2 = some err → R.error err

omit [ActorModel C S A] in
theorem Meets.unfailing (hs : s.Meets R) : MeetsFailing R (s, none) :=
  ⟨hs, fun _ h => by cases h⟩

omit [ActorModel C S A] in
theorem Meets.withActors {arena : Arena A} (hs : s.Meets R) (h : ∀ x ∈ arena, R.actor x.actor) :
    Meets R { s with actors := arena } := ⟨h, hs.lastError, hs.frame⟩

omit [ActorModel C S A] in
theorem Meets.receive (hs : s.Meets R) (id : String) (posts : List Post) :
    (s.receive id posts).Meets R := ⟨hs.actors, hs.lastError, hs.frame⟩

omit [ActorModel C S A] in
theorem Meets.queue (hs : s.Meets R) (e : Event) : (s.queue e).Meets R :=
  ⟨hs.actors, hs.lastError, hs.frame⟩

-- What an actor posts goes to the mailbox, and to nobody else.
omit [ActorModel C S A] in
theorem runActor_keeps {α : Type} {Q : α → Prop} {y : Turn C α} (hs : s.Meets R)
    (hy : y.Keeps R.entry (fun _ => True) Q) :
    (s.runActor id y).Keeps R.entry R.post fun z => Q z.1 ∧ z.2.Meets R :=
  hy.collect.bind fun _ hq => .pure ⟨hq, hs.receive ..⟩

omit [ActorModel C S A] in
theorem eachActor_keeps {p : ArenaEntry A → Bool} {f : A → Turn C A} (hs : s.Meets R)
    (hf : ∀ a, R.actor a → (f a).Keeps R.entry (fun _ => True) R.actor) :
    (s.eachActor p f).Keeps R.entry R.post (Meets R) := by
  have hgo (rest seen : Arena A) (s : Shell C A) (hs : s.Meets R)
      (hrest : ∀ x ∈ rest, R.actor x.actor) (hseen : ∀ x ∈ seen, R.actor x.actor) :
      (eachActor.go p f rest seen s).Keeps R.entry R.post (Meets R) := by
    induction rest generalizing seen s with
    | nil => exact .pure (hs.withActors hseen)
    | cons y rest ih =>
      obtain ⟨hy, hrest⟩ := List.forall_mem_cons.mp hrest
      rw [eachActor.go]
      split
      case isTrue =>
        refine (runActor_keeps hs (hf _ hy)).bind fun z hz => ?_
        exact ih _ _ hz.right hrest
          (List.forall_mem_append.mpr ⟨hseen, List.forall_mem_singleton.mpr hz.left⟩)
      case isFalse =>
        exact ih _ _ hs hrest (List.forall_mem_append.mpr ⟨hseen, List.forall_mem_singleton.mpr hy⟩)
  exact hgo _ _ _ hs hs.actors (List.forall_mem_nil _)

omit [ActorModel C S A] in
theorem Meets.find {b : A} (hs : s.Meets R) (h : s.actors.find? id = some b) : R.actor b := by
  obtain ⟨x, hx, rfl⟩ := Option.map_eq_some_iff.mp h
  exact hs.actors x (List.mem_of_find?_eq_some hx)

section Hold

variable (hold : R.Hold r)
include hold

theorem plain_keeps {e : Entry C} (h : e.error? = none) :
    (Turn.note e).Keeps R.entry R.post fun _ => True :=
  .note (hold.entry (by simp [h]))

theorem removeActor_keeps (hs : s.Meets R) :
    (s.removeActor env id).Keeps R.entry R.post (Meets R) := by
  rw [removeActor]
  split
  case h_1 => exact .pure hs
  case h_2 b hb =>
    have hrest : Meets R { s with actors := s.actors.erase id } :=
      hs.withActors fun x hx => hs.actors x (List.mem_of_mem_eraseP hx)
    exact (runActor_keeps hrest (hold.stops env (hs.find hb))).bind fun _ hz => .pure hz.right

theorem insertActor_keeps {y : ArenaEntry A} (hs : s.Meets R) (hy : R.actor y.actor) :
    (s.insertActor env y).Keeps R.entry R.post (Meets R) :=
  (removeActor_keeps hold hs).bind fun _ hs' => .pure (hs'.withActors
    (List.forall_mem_append.mpr ⟨hs'.actors, List.forall_mem_singleton.mpr hy⟩))

theorem deliver_keeps (target : Target) (e : Event) (hs : s.Meets R) :
    (s.deliver env target e).Keeps R.entry R.post (Meets R) := by
  cases target with
  | self => exact .pure (hs.queue e)
  | parent =>
    rw [deliver]
    split
    · exact (Turn.Keeps.post (hold.sent e)).bind fun _ _ => .pure hs
    · exact (plain_keeps hold rfl).bind fun _ _ => .pure hs
  | actor id =>
    rw [deliver]
    split
    case h_1 => exact (plain_keeps hold rfl).bind fun _ _ => .pure hs
    case h_2 b hb =>
      refine (runActor_keeps hs (hold.sends env e (hs.find hb))).bind fun z hz => ?_
      refine .pure (hz.right.withActors fun x hx => ?_)
      obtain ⟨y, hy, rfl⟩ := List.mem_map.mp hx
      split
      · exact hz.left
      · exact hz.right.actors y hy

theorem forward_keeps (e : Event) (hs : s.Meets R) :
    (s.forward env e).Keeps R.entry R.post (Meets R) :=
  eachActor_keeps hs fun _ ha => hold.sends env e ha

theorem command_keeps (c : Command) (hs : s.Meets R) :
    (s.command c).Keeps R.entry R.post (Meets R) := by
  cases c with
  | send e => exact .pure (hs.queue e)
  | sendParent e =>
    rw [command]
    split
    · exact (Turn.Keeps.post (hold.sent e)).bind fun _ _ =>
        (plain_keeps hold rfl).bind fun _ _ => .pure hs
    · exact (plain_keeps hold rfl).bind fun _ _ => .pure hs
  | resolve data => exact (plain_keeps hold rfl).bind fun _ _ => .pure hs

theorem spawn_keeps {name : String} {logic : S} {q : StartRequest C} {autoForward : Bool}
    (hl : r.services.find? name = some logic) (hs : s.Meets R) :
    (s.spawn env logic q autoForward).Keeps R.entry R.post (Meets R) := by
  rw [spawn]
  refine (runActor_keeps hs (hold.started env q hl)).bind ?_
  rintro ⟨o, s'⟩ ⟨ho, hs'⟩
  cases o with
  | ok b => exact insertActor_keeps hold hs' (ho b rfl)
  | error err =>
    exact (plain_keeps hold rfl).bind fun _ _ =>
      (insertActor_keeps hold hs' hold.settled).bind fun _ hs => .pure (hs.receive ..)

-- The names that an action needs are registered, unless whatever goes wrong is all right.
theorem perform_keeps (ha : R.Grants (a.Known r)) (hs : s.Meets R) :
    (s.perform env r x e a).Keeps R.entry R.post (MeetsFailing R) := by
  cases a with
  | effect name =>
    rw [perform]
    split
    case h_1 run _ =>
      refine (plain_keeps hold rfl).bind fun _ _ => ?_
      refine (Turn.Keeps.foldlM (fun _ c _ hs => command_keeps hold c hs) hs).bind fun s' hs' => ?_
      refine .pure ⟨hs', fun err herr => ?_⟩
      obtain ⟨cause, _, rfl⟩ := Option.map_eq_some_iff.mp herr
      exact hold.failed ..
    case h_2 hn =>
      refine .pure ⟨hs, fun err herr => ?_⟩
      obtain ⟨run, hrun⟩ | hall := ha
      · exact absurd hrun (hn run)
      · exact hall err
  | send sent target delay id owner =>
    cases delay with
    | none => exact (deliver_keeps hold target sent hs).bind fun _ hs' => .pure hs'.unfailing
    | some delay =>
      rw [perform]
      split
      case h_1 =>
        refine .pure ⟨hs, fun err herr => ?_⟩
        cases herr
        exact hold.overflowed _
      case h_2 => exact .pure (Meets.unfailing ⟨hs.actors, hs.lastError, hs.frame⟩)
  | cancel id => exact .pure (Meets.unfailing ⟨hs.actors, hs.lastError, hs.frame⟩)
  | cancelOwned owner => exact .pure (Meets.unfailing ⟨hs.actors, hs.lastError, hs.frame⟩)
  | log label => exact (plain_keeps hold rfl).bind fun _ _ => .pure hs.unfailing
  | spawn service id owner autoForward =>
    rw [perform]
    split
    case h_1 hn =>
      refine .pure ⟨hs, fun err herr => ?_⟩
      obtain ⟨logic, hl⟩ | hall := ha
      · simp [hn] at hl
      · exact hall err
    case h_2 logic hl => exact (spawn_keeps hold hl hs).bind fun _ hs' => .pure hs'.unfailing
  | stop id => exact (removeActor_keeps hold hs).bind fun _ hs' => .pure hs'.unfailing

theorem performAll_keeps (ha : ∀ a ∈ actions, R.Grants (a.Known r)) (hs : s.Meets R) :
    (s.performAll env r x e actions).Keeps R.entry R.post (MeetsFailing R) := by
  induction actions generalizing s with
  | nil => exact .pure hs.unfailing
  | cons a rest ih =>
    obtain ⟨ha, hrest⟩ := List.forall_mem_cons.mp ha
    refine (perform_keeps hold ha hs).bind ?_
    rintro ⟨s', failure⟩ h
    cases failure with
    | some err => exact .pure h
    | none => exact ih hrest h.left

omit hold in
theorem callAll_keeps {α : Type} {listeners : List α} {entry : α → Entry C}
    {posts : α → List Event} (he : ∀ l, R.entry (entry l)) (hs : s.Meets R) :
    (s.callAll listeners entry posts).Keeps R.entry R.post (Meets R) :=
  .foldlM (fun s l _ hs => (Turn.Keeps.note (he l)).bind fun _ _ => .pure (by
    rw [queueAll_mailbox]
    exact ⟨hs.actors, hs.lastError, hs.frame⟩)) hs

theorem report_keeps {err : ExecutionError} (herr : R.error err) (hs : s.Meets R) :
    (s.report err).Keeps R.entry R.post (Meets R) := by
  have herr' : ∀ err', some err = some err' → R.error err' := by
    rintro _ ⟨⟩
    exact herr
  exact (plain_keeps hold rfl).bind fun _ _ =>
    callAll_keeps (fun _ => hold.entry herr') ⟨hs.actors, herr', hs.frame⟩

theorem reportAll_keeps {es : List ExecutionError} (he : ∀ err ∈ es, R.error err)
    (hs : s.Meets R) : (s.reportAll es).Keeps R.entry R.post (Meets R) :=
  .foldlM (fun _ err hmem hs => report_keeps hold (he err hmem) hs) hs

theorem performEach_keeps (ha : ∀ a ∈ actions, R.Grants (a.Known r)) (hs : s.Meets R) :
    (s.performEach env r x e actions).Keeps R.entry R.post (Meets R) := by
  refine .foldlM (fun s a hmem hs => ?_) hs
  refine (perform_keeps hold (ha a hmem) hs).bind fun y h => ?_
  exact reportAll_keeps hold (fun err herr => h.right err (Option.mem_toList.mp herr)) h.left

-- Of the frame nothing changes but that the interpreter is stopped from now on.
theorem halt_keeps (hs : Meets R { s with status := .stopped }) :
    (s.halt env).Keeps R.entry R.post (Meets R) :=
  (eachActor_keeps hs fun _ ha => hold.stops env ha).bind fun _ hs' =>
    .pure ⟨hs'.actors, hs'.lastError, hs'.frame⟩

end Hold

end Shell

-- Nothing is demanded of what is posted and of the status.
structure Shell.Standards.Lax (R : Shell.Standards C A) : Prop where
  post (p : Post) : R.post p
  status {st st' : Status} {owned : Bool} {failure : Option ExecutionError} :
    R.frame st owned failure → R.frame st' owned failure
  failure {st : Status} {owned : Bool} {failure : Option ExecutionError} {err : ExecutionError} :
    R.frame st owned failure → R.error err → R.frame st owned (some err)

namespace Interpreter

structure Meets (R : Shell.Standards C A) (m : Machine C S) (i : Interpreter C S A) : Prop where
  machine : i.machine = m
  shell : i.shell.Meets R

variable {R : Shell.Standards C A} {m : Machine C S} {i : Interpreter C S A} {env : Env}
  {e : Event} {v : Envelope} {trigger : Trigger} {changed : Bool} {fuel : Nat}

section Hold

variable (hold : R.Hold m.registry)
include hold

theorem commit_meets : Commit.Meets R.toStandards m.registry (Shell.Meets R)
    (commit env m.registry) :=
  fun _ _ _ hs hk => Shell.performAll_keeps hold (fun a ha => hk.imp_left (· a ha)) hs

theorem finishTasks_meets (hi : i.Meets R m) :
    i.finishTasks.Keeps R.entry R.post (Meets R m) :=
  (Shell.eachActor_keeps hi.shell fun _ => hold.finishes).bind fun _ hs => .pure ⟨hi.machine, hs⟩

theorem notify_meets (hi : i.Meets R m) : i.notify.Keeps R.entry R.post (Meets R m) := by
  exact (Shell.callAll_keeps (fun _ => hold.entry (by simp [Entry.error?])) hi.shell).bind
    fun _ hs => .pure ⟨hi.machine, hs⟩

variable (hlax : R.Lax)
include hlax

theorem halt_meets (hi : i.Meets R m) : (i.halt env).Keeps R.entry R.post (Meets R m) :=
  (Shell.halt_keeps hold ⟨hi.shell.actors, hi.shell.lastError, hlax.status hi.shell.frame⟩).bind
    fun _ hs => .pure ⟨hi.machine, hs⟩

theorem fail_meets {err : ExecutionError} (herr : R.error err) (hi : i.Meets R m) :
    (i.fail env err).Keeps R.entry R.post (Meets R m) := by
  have hfailed : Meets R m { i with shell.failure := some err } :=
    ⟨hi.machine, hi.shell.actors, hi.shell.lastError, hlax.failure hi.shell.frame herr⟩
  refine (Shell.plain_keeps hold rfl).bind fun _ _ => ?_
  split
  · exact (Turn.Keeps.post (hlax.post _)).bind fun _ _ => halt_meets hold hlax hfailed
  · exact halt_meets hold hlax hfailed

theorem finish_meets (hi : i.Meets R m) : (i.finish env).Keeps R.entry R.post (Meets R m) := by
  rw [finish]
  refine (Shell.callAll_keeps (fun _ => hold.entry (by simp [Entry.error?])) hi.shell).bind
    fun s hs => ?_
  have hs : Meets R m { i with shell := s } := ⟨hi.machine, hs⟩
  split
  · exact (Turn.Keeps.post (hlax.post _)).bind fun _ _ => halt_meets hold hlax hs
  · exact halt_meets hold hlax hs

theorem settle_meets (hi : i.Meets R m) :
    (i.settle env changed).Keeps R.entry R.post (Meets R m) := by
  have hover {j : Interpreter C S A} (hj : j.Meets R m) :
      (if j.state.done then j.finish env else pure j).Keeps R.entry R.post (Meets R m) := by
    split
    · exact finish_meets hold hlax hj
    · exact .pure hj
  cases changed with
  | false => exact hover hi
  | true => exact (notify_meets hold hi).bind fun _ => hover

section Provides

variable (ht : R.Grants (m.registry.Provides m.tree))
include ht

theorem macrostep_meets (hi : i.Meets R m) :
    (i.macrostep env trigger).Keeps R.entry R.post (Meets R m) := by
  obtain ⟨rfl, hs⟩ := hi
  refine (Macrostep.run_meets hold.toHold ht (commit_meets hold) hs).bind fun p hp => ?_
  refine (Shell.reportAll_keeps hold hp.guardErrors hp.shell).bind fun s hs => ?_
  have hs' : Shell.Meets R { s with lastEvent := some trigger.toEvent, lastChanged := p.changed } :=
    ⟨hs.actors, hs.lastError, hs.frame⟩
  cases herr : p.error with
  | none => exact settle_meets hold hlax ⟨rfl, hs'⟩
  | some err =>
    refine (Shell.report_keeps hold (hp.error err herr) hs').bind fun s hs => ?_
    dsimp only
    split
    · exact fail_meets hold hlax (hp.error err herr) ⟨rfl, hs⟩
    · exact settle_meets hold hlax ⟨rfl, hs⟩

theorem process_meets (hi : i.Meets R m) :
    (i.process env v).Keeps R.entry R.post (Meets R m) := by
  rw [process]
  split
  case h_1 =>
    split
    · exact macrostep_meets hold hlax ht hi
    · exact .pure hi
  case h_2 =>
    exact (Shell.forward_keeps hold v.event hi.shell).bind fun _ hs =>
      macrostep_meets hold hlax ht ⟨hi.machine, hs⟩

theorem drainWithin_meets (hi : i.Meets R m) :
    (i.drainWithin env fuel).Keeps R.entry R.post (Meets R m) := by
  fun_induction drainWithin env fuel i with
  | case1 => exact .pure hi
  | case2 => exact .pure hi
  | case3 => exact .crash
  | case4 i _ v rest _ fuel ih =>
    have hrest : Meets R m { i with shell.mailbox := rest } :=
      ⟨hi.machine, hi.shell.actors, hi.shell.lastError, hi.shell.frame⟩
    exact (process_meets hold hlax ht hrest).bind ih

theorem start_meets (hi : i.Meets R m) : (i.start env).Keeps R.entry R.post (Meets R m) := by
  have hrunning : Meets R m { i with shell.status := .running } :=
    ⟨hi.machine, hi.shell.actors, hi.shell.lastError, hlax.status hi.shell.frame⟩
  rw [start]
  split
  · exact (macrostep_meets hold hlax ht hrunning).bind fun _ => drainWithin_meets hold hlax ht
  · exact .pure hi

theorem send_meets (hi : i.Meets R m) : (i.send env e).Keeps R.entry R.post (Meets R m) := by
  rw [send]
  split
  · exact drainWithin_meets hold hlax ht ⟨hi.machine, hi.shell.queue e⟩
  · exact .pure hi

theorem deliverDueWithin_meets (hi : i.Meets R m) :
    (i.deliverDueWithin env fuel).Keeps R.entry R.post (Meets R m) := by
  fun_induction deliverDueWithin env fuel i with
  | case1 => exact .pure hi
  | case2 => exact .pure hi
  | case3 => exact .crash
  | case4 i _ due rest _ fuel ih =>
    have hrest : Shell.Meets R { i.shell with scheduler := rest } :=
      ⟨hi.shell.actors, hi.shell.lastError, hi.shell.frame⟩
    refine (Shell.deliver_keeps hold due.target due.event hrest).bind fun s hs => ?_
    have hdelivered : Meets R m { i with shell := s } := ⟨hi.machine, hs⟩
    exact (drainWithin_meets hold hlax ht hdelivered).bind fun j hj => ih j hj

theorem poll_meets (hi : i.Meets R m) : (i.poll env).Keeps R.entry R.post (Meets R m) := by
  rw [poll]
  split
  · refine (Shell.eachActor_keeps hi.shell fun _ => hold.polls env).bind fun s hs => ?_
    have hpolled : Meets R m { i with shell := s } := ⟨hi.machine, hs⟩
    exact (deliverDueWithin_meets hold hlax ht hpolled).bind fun _ =>
      drainWithin_meets hold hlax ht
  · exact .pure hi

theorem stop_meets (hi : i.Meets R m) : (i.stop env).Keeps R.entry R.post (Meets R m) := by
  obtain ⟨rfl, hs⟩ := hi
  have hhalt {s : Shell C A} (x : MachineState C) (hs : s.Meets R) :
      (halt env { i with state := x, shell := s }).Keeps R.entry R.post (Meets R i.machine) :=
    halt_meets hold hlax ⟨rfl, hs⟩
  rw [stop]
  split
  case h_1 => exact .pure ⟨rfl, hs⟩
  case h_2 => exact .pure ⟨rfl, hs.actors, hs.lastError, hlax.status hs.frame⟩
  case h_3 =>
    dsimp only
    split
    case h_1 step hstep =>
      have hknown : R.Grants (step.Known i.machine.registry) := by
        refine ht.imp_left fun hp => ?_
        obtain ⟨_, hm, hk⟩ := Microstep.exitAll_known hp
        cases hstep.symm.trans hm
        exact hk
      exact (Shell.performEach_keeps hold (fun a ha => hknown.imp_left (· a ha)) hs).bind
        fun _ => hhalt _
    case h_2 err herr =>
      have herror : R.error err := by
        rcases ht with hp | hall
        · obtain ⟨_, hm, _⟩ := Microstep.exitAll_known hp
          cases herr.symm.trans hm
        · exact hall err
      exact (Shell.report_keeps hold herror hs).bind fun _ => hhalt _

theorem restore_meets {c : Checkpoint C} (hi : i.Meets R m) :
    (i.restore env c).Keeps R.entry R.post fun o => ∀ j, o = .ok j → j.Meets R m := by
  obtain ⟨rfl, hs⟩ := hi
  rw [restore]
  split
  case h_1 => exact .pure fun _ he => by cases he
  case h_2 s actions hc =>
    have hactions : R.Grants (∀ a ∈ actions, a.Known i.machine.registry) := by
      refine ht.imp_left fun hp => ?_
      obtain ⟨_, hr, hk⟩ := Microstep.resume_known hp
      cases (Course.resume_of_resumption hc).symm.trans hr
      exact hk
    have hrunning : Shell.Meets R { i.shell with
        status := .running, lastEvent := some .init } :=
      ⟨hs.actors, hs.lastError, hlax.status hs.frame⟩
    refine Turn.Keeps.bind (Q := Meets R i.machine) ?_ fun _ hj => .pure fun _ he =>
      Except.ok.inj he ▸ hj
    rw [resume]
    split
    · exact halt_meets hold hlax ⟨rfl, hrunning⟩
    · refine (Shell.performEach_keeps hold (fun a ha => hactions.imp_left (· a ha)) hrunning).bind
        fun s hs => ?_
      exact drainWithin_meets hold hlax ht ⟨rfl, hs⟩

end Provides

end Hold

end Interpreter

end Shell

end Statechart
