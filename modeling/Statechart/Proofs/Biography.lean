import Statechart.Proofs.Checkpoint
import Statechart.Proofs.Descendants
import Statechart.Proofs.Report

-- The life of a child machine as its owner sees it: whether the child reports to it, and what.

namespace Statechart

variable {C S A : Type} [ActorModel C S A]

omit [ActorModel C S A] in
theorem Configuration.ne_empty_of_isLegal {t : Tree} {c : Configuration}
    (h : c.isLegal t = true) : c ≠ ∅ := by
  rintro rfl
  cases h

namespace Moment

-- The child has completed.
inductive Completes : Moment C A → Json → Prop
  | intro {trigger p} : p.state.done = true →
      Completes (.ran trigger p) (p.state.doneData.getD .null)

-- The child has failed: fatally, or because its initial microstep could not be committed.
inductive Fails (config : Config) : Moment C A → ExecutionError → Prop
  | fatal {trigger p err} : config.errorPolicy = .fatal → p.error = some err →
      Fails config (.ran trigger p) err
  | uncommitted {p err} : p.microsteps = 0 → p.error = some err → Fails config (.ran .start p) err

-- No macrostep both completes and goes wrong. Nothing is active just if the initial microstep was
-- not committed, and that is an error.
inductive Coherent : Moment C A → Prop
  | ran {trigger p} : (p.error = none ∨ p.state.done = false) →
      (p.state.configuration = ∅ ↔ trigger = .start ∧ p.microsteps = 0) →
      (trigger = .start → p.microsteps = 0 → p.error ≠ none) → Coherent (.ran trigger p)
  | stopped : Coherent .stopped

variable {config : Config} {x : Moment C A} {data : Json} {err : ExecutionError} {post : Post}

omit [ActorModel C S A]

theorem report_of_completes (h : x.Completes data) : x.report? config = some (.resolve data) := by
  cases h with
  | @intro trigger _ hd => exact report_of_done config trigger hd

theorem report_of_fails (hx : x.Coherent) (h : x.Fails config err) :
    x.report? config = some (.reject (Interpreter.errorData err)) := by
  cases hx with
  | stopped => cases h
  | ran hover hempty _ =>
    cases h with
    | fatal hf he => exact report_of_fatal _ (hover.resolve_left (by simp [he])) (by simp [hf]) he
    | uncommitted hm he =>
      have hc := hempty.mpr ⟨rfl, hm⟩
      exact report_of_fatal _ (hover.resolve_left (by simp [he])) (by simp [hc]) he

-- Nothing else is reported.
theorem completes_or_fails_of_report (hx : x.Coherent) (h : x.report? config = some post) :
    (∃ data, x.Completes data ∧ post = .resolve data) ∨
      ∃ err, x.Fails config err ∧ post = .reject (Interpreter.errorData err) := by
  cases hx with
  | stopped => cases h
  | @ran trigger p _ hempty _ =>
    rw [report?] at h
    split at h
    case isTrue hd =>
      cases h
      exact .inl ⟨_, .intro hd, rfl⟩
    case isFalse =>
      split at h
      case isFalse => cases h
      case isTrue hf =>
        obtain ⟨err, he, rfl⟩ := Option.map_eq_some_iff.mp h
        refine .inr ⟨err, ?_, rfl⟩
        rcases Bool.or_eq_true_iff.mp hf with hf | hc
        · exact .fatal (by simpa using hf) he
        · obtain ⟨rfl, hm⟩ := hempty.mp (SortedSet.isEmpty_iff.mp hc)
          exact .uncommitted hm he

end Moment

namespace Interpreter

-- What is done with an interpreter apart from its macrosteps.
inductive Errand (s : Shell C A) : Turn C (Shell C A) → Prop
  | queue (e : Event) : Errand s (pure (s.queue e))
  | take {v rest} : s.mailbox = v :: rest → Errand s (pure { s with mailbox := rest })
  | forward (env : Env) (e : Event) : Errand s (s.forward env e)
  | poll (env : Env) : Errand s (s.eachActor (fun _ => true) (ActorModel.poll env))
  | finishTasks : Errand s (s.eachActor (fun _ => true) ActorModel.finishTasks)
  | deliver {env due rest} : s.scheduler.popDue? env.now = some (due, rest) →
      Errand s (Shell.deliver env { s with scheduler := rest } due.target due.event)

-- The life of a child that runs `m` for the actor `id`: the moments that decide about it, and all
-- that it has posted to its owner.
inductive Biography (m : Machine C S) (id : String) :
    List (Moment C A) → List Post → Interpreter C S A → Prop
  | start {env p j} {i : Interpreter C S A} :
      i = { spawned m id with shell.status := .running } →
      (Macrostep.run m.tree m.registry m.config (commit env m.registry) i.shell i.state
        .start).outcome = .ok p →
      (i.macrostep env .start).outcome = .ok j →
      Biography m id [.ran .start p] (i.macrostep env .start).posts j
  | errand {moments posts i y s} : Biography m id moments posts i → Errand i.shell y →
      y.outcome = .ok s → Biography m id moments (posts ++ y.posts) { i with shell := s }
  | event {moments posts i env e p j} : Biography m id moments posts i →
      i.shell.status = .running →
      (Macrostep.run m.tree m.registry m.config (commit env m.registry) i.shell i.state
        (.event e)).outcome = .ok p →
      (i.macrostep env (.event e)).outcome = .ok j →
      Biography m id (moments ++ [.ran (.event e) p])
        (posts ++ (i.macrostep env (.event e)).posts) j
  | stop {moments posts i env j} : Biography m id moments posts i → i.shell.status ≠ .stopped →
      (i.stop env).outcome = .ok j →
      Biography m id (moments ++ [.stopped]) (posts ++ (i.stop env).posts) j

-- Nothing decisive has happened yet, and nothing has been reported.
structure Going (m : Machine C S) (moments : List (Moment C A)) (posts : List Post)
    (i : Interpreter C S A) : Prop where
  not_last : ∀ x ∈ moments, x.isLast m.config = false
  reports : Post.reports posts = []
  shell : i.shell.Meets (.silent .running)
  not_done : i.state.done = false
  legal : i.state.configuration.isLegal m.tree = true

-- It has come to its end, and that has been reported if it is to be.
structure Gone (m : Machine C S) (moments : List (Moment C A)) (posts : List Post)
    (i : Interpreter C S A) : Prop where
  last : ∃ before last, moments = before ++ [last] ∧ (∀ x ∈ before, x.isLast m.config = false) ∧
    last.isLast m.config = true ∧ Post.reports posts = (last.report? m.config).toList
  shell : i.shell.Meets (.silent .stopped)

structure Standing (m : Machine C S) (moments : List (Moment C A)) (posts : List Post)
    (i : Interpreter C S A) : Prop where
  machine : i.machine = m
  coherent : ∀ x ∈ moments, x.Coherent
  going_or_gone : Going m moments posts i ∨ Gone m moments posts i

variable {i j : Interpreter C S A} {env : Env} {m : Machine C S} {id : String}
  {moments : List (Moment C A)} {posts : List Post} {x : Moment C A} {st : Status}

theorem Errand.reports {y : Turn C (Shell C A)} {s s' : Shell C A} (h : Errand s y)
    (hs : s.Meets (.silent st)) (hy : y.outcome = .ok s') :
    Post.reports y.posts = [] ∧ s'.Meets (.silent st) := by
  have hold : (Shell.Standards.silent (C := C) (A := A) st).Hold ({} : Registry C S) :=
    Shell.Standards.silent_hold
  have hk : y.Keeps (fun _ => True) (fun p => p.isReport = false) (Shell.Meets (.silent st)) := by
    cases h with
    | queue e => exact .pure (hs.queue e)
    | take => exact .pure ⟨hs.actors, hs.lastError, hs.frame⟩
    | forward _ e => exact Shell.forward_keeps hold e hs
    | poll => exact Shell.eachActor_keeps hs fun _ _ => .trivial
    | finishTasks => exact Shell.eachActor_keeps hs fun _ _ => .trivial
    | deliver => exact Shell.deliver_keeps hold _ _ ⟨hs.actors, hs.lastError, hs.frame⟩
  exact ⟨hk.reports, hk.value hy⟩


-- After the moment `x` it goes on, or has come to its end.
omit [ActorModel C S A] in
theorem Outlives.going_or_gone {posts' : List Post}
    (hnot : ∀ y ∈ moments, y.isLast m.config = false) (hr : Post.reports posts = [])
    (ho : Outlives m x posts' j) (hlive : x.isLast m.config = false →
      j.state.done = false ∧ j.state.configuration.isLegal m.tree = true) :
    Going m (moments ++ [x]) (posts ++ posts') j ∨ Gone m (moments ++ [x]) (posts ++ posts') j := by
  have hreports : Post.reports (posts ++ posts') = (x.report? m.config).toList := by
    rw [Post.reports_append, hr, ho.reports]
    rfl
  cases hx : x.isLast m.config with
  | false =>
    obtain ⟨hd, hl⟩ := hlive hx
    refine .inl ⟨?_, ?_, ho.not_last hx, hd, hl⟩
    · exact List.forall_mem_append.mpr ⟨hnot, List.forall_mem_singleton.mpr hx⟩
    · rw [hreports, Moment.report_of_not_last hx]
      rfl
  | true => exact .inr ⟨⟨moments, x, rfl, hnot, hx, hreports⟩, ho.last hx⟩

section Run

variable {p : Progress (Shell C A) C}

theorem start_coherent (hs : i.state.configuration = ∅) (hd : i.state.done = false)
    (hp : (Macrostep.run m.tree m.registry m.config (commit env m.registry) i.shell i.state
      .start).outcome = .ok p) : (Moment.ran .start p).Coherent ∧
        ((Moment.ran .start p).isLast m.config = false →
          p.state.done = false ∧ p.state.configuration.isLegal m.tree = true) := by
  have hover := Macrostep.run_error hd hp
  rcases Macrostep.run_start_cases hp with ⟨hm, he, hc⟩ | ⟨hm, hl⟩
  · have hempty := hc.trans hs
    refine ⟨.ran hover (by simp [hempty, hm]) fun _ _ => he, fun hnot => ?_⟩
    obtain ⟨err, herr⟩ := Option.ne_none_iff_exists'.mp he
    have hx : (Moment.ran .start p).report? m.config = _ := Moment.report_of_fails
      (.ran hover (by simp [hempty, hm]) fun _ _ => he) (.uncommitted hm herr)
    cases (Moment.report_of_not_last hnot).symm.trans hx
  · have hne := Configuration.ne_empty_of_isLegal hl
    exact ⟨.ran hover (by simp [hne, hm]) fun _ h => absurd h hm, fun hnot =>
      ⟨Moment.not_done_of_not_last hnot, hl⟩⟩

theorem event_coherent {e : Event} (hs : i.state.configuration.isLegal m.tree = true)
    (hd : i.state.done = false) (hp : (Macrostep.run m.tree m.registry m.config
      (commit env m.registry) i.shell i.state (.event e)).outcome = .ok p) :
    (Moment.ran (.event e) p).Coherent ∧ ((Moment.ran (.event e) p).isLast m.config = false →
      p.state.done = false ∧ p.state.configuration.isLegal m.tree = true) := by
  have hl := Macrostep.run_event_isLegal hs hp
  have hne := Configuration.ne_empty_of_isLegal hl
  exact ⟨.ran (Macrostep.run_error hd hp) (by simp [hne]) nofun, fun hnot =>
    ⟨Moment.not_done_of_not_last hnot, hl⟩⟩

end Run

theorem Biography.standing (h : Biography m id moments posts i) : Standing m moments posts i := by
  induction h with
  | @start env p j i hi hp hj =>
    have hmeets : i.shell.Meets (.silent .running) := by
      subst hi
      exact Shell.meets_silent.mpr ⟨rfl, rfl⟩
    obtain ⟨hm, hc, hd⟩ : i.machine = m ∧ i.state.configuration = ∅ ∧ i.state.done = false := by
      subst hi
      exact ⟨rfl, rfl, rfl⟩
    subst hm
    obtain ⟨hx, hlive⟩ := start_coherent hc hd hp
    obtain ⟨ho, hs⟩ := macrostep_outlives hmeets hd hp hj
    have hnot : ∀ x ∈ ([] : List (Moment C A)), x.isLast i.machine.config = false :=
      List.forall_mem_nil _
    have hreports : Post.reports [] = [] := rfl
    exact ⟨ho.machine, List.forall_mem_singleton.mpr hx,
      ho.going_or_gone hnot hreports (hs ▸ hlive)⟩
  | errand _ hy hs ih =>
    refine ⟨ih.machine, ih.coherent, ih.going_or_gone.imp (fun h => ?_) fun h => ?_⟩
    case refine_1 =>
      obtain ⟨hr, hmeets⟩ := hy.reports h.shell hs
      exact ⟨h.not_last, by rw [Post.reports_append, h.reports, hr]; rfl, hmeets, h.not_done,
        h.legal⟩
    case refine_2 =>
      obtain ⟨hr, hmeets⟩ := hy.reports h.shell hs
      obtain ⟨before, last, hbefore, hnot, hlast, hreports⟩ := h.last
      exact ⟨⟨before, last, hbefore, hnot, hlast, by
        rw [Post.reports_append, hr, List.append_nil, hreports]⟩, hmeets⟩
  | event _ hrunning hp hj ih =>
    obtain ⟨rfl, hcoherent, hgo | hgone⟩ := ih
    case inl =>
      obtain ⟨hx, hlive⟩ := event_coherent hgo.legal hgo.not_done hp
      obtain ⟨ho, hs⟩ := macrostep_outlives hgo.shell hgo.not_done hp hj
      exact ⟨ho.machine, List.forall_mem_append.mpr ⟨hcoherent, List.forall_mem_singleton.mpr hx⟩,
        ho.going_or_gone hgo.not_last hgo.reports (hs ▸ hlive)⟩
    case inr =>
      cases hrunning.symm.trans (Shell.meets_silent.mp hgone.shell).left
  | stop _ hne hj ih =>
    obtain ⟨rfl, hcoherent, hgo | hgone⟩ := ih
    case inl =>
      have ho := stop_outlives (Shell.meets_silent.mp hgo.shell).right hne hj
      exact ⟨ho.machine, List.forall_mem_append.mpr ⟨hcoherent,
        List.forall_mem_singleton.mpr .stopped⟩, ho.going_or_gone hgo.not_last hgo.reports nofun⟩
    case inr => exact absurd (Shell.meets_silent.mp hgone.shell).left hne

-- All that `x` does with `i` belongs to the life of `i`.
def Extends (m : Machine C S) (id : String) (i : Interpreter C S A)
    (x : Turn C (Interpreter C S A)) : Prop :=
  ∀ moments posts j, Biography m id moments posts i → x.outcome = .ok j →
    ∃ later, Biography m id (moments ++ later) (posts ++ x.posts) j

namespace Extends

variable {y : Turn C (Shell C A)} {x : Turn C (Interpreter C S A)} {s : Shell C A} {fuel : Nat}

theorem pure : Extends m id i (pure i) := by
  rintro moments posts _ hi ⟨⟩
  exact ⟨[], by simpa [Pure.pure, Turn.pure] using hi⟩

theorem bind {f : Interpreter C S A → Turn C (Interpreter C S A)} (hx : Extends m id i x)
    (hf : ∀ j, Extends m id j (f j)) : Extends m id i (x >>= f) := by
  intro moments posts k hi h
  obtain ⟨j, hj, hk⟩ := Turn.bind_eq_ok.mp h
  obtain ⟨later, hlater⟩ := hx moments posts j hi hj
  obtain ⟨later', hlater'⟩ := hf j _ _ k hlater hk
  refine ⟨later ++ later', ?_⟩
  rw [Turn.posts_bind hj, ← List.append_assoc, ← List.append_assoc]
  exact hlater'

theorem errand {f : Shell C A → Turn C (Interpreter C S A)} (hy : Errand i.shell y)
    (hf : ∀ s, y.outcome = .ok s → Extends m id { i with shell := s } (f s)) :
    Extends m id i (y >>= f) := by
  intro moments posts j hi h
  obtain ⟨s, hs, hj⟩ := Turn.bind_eq_ok.mp h
  obtain ⟨later, hlater⟩ := hf s hs _ _ j (hi.errand hy hs) hj
  refine ⟨later, ?_⟩
  rw [Turn.posts_bind hs, ← List.append_assoc]
  exact hlater

theorem aside (hy : Errand i.shell (Pure.pure s)) (hx : Extends m id { i with shell := s } x) :
    Extends m id i x := by
  rw [← pure_bind s fun _ => x]
  refine errand hy fun s' hs => ?_
  cases hs
  exact hx

theorem macrostep {e : Event} (hr : i.shell.status = .running) :
    Extends m id i (i.macrostep env (.event e)) := by
  intro moments posts j hi h
  obtain ⟨p, hp, _⟩ := Turn.bind_eq_ok.mp h
  obtain rfl := hi.standing.machine
  exact ⟨_, hi.event hr hp h⟩

theorem process {v : Envelope} (hr : i.shell.status = .running) :
    Extends m id i (i.process env v) := by
  rw [Interpreter.process]
  split
  case h_1 =>
    split
    · exact macrostep hr
    · exact pure
  case h_2 =>
    refine errand (.forward env v.event) fun s hs => macrostep ?_
    obtain ⟨_, hreceives⟩ := (Shell.eachActor_ok hs).left.receives
    exact hreceives.status.trans hr

theorem drainWithin : Extends m id i (i.drainWithin env fuel) := by
  fun_induction Interpreter.drainWithin env fuel i with
  | case1 => exact pure
  | case2 => exact pure
  | case3 => exact fun _ _ _ _ h => by cases h
  | case4 i hr v rest fuel hm ih =>
    have hrunning : i.shell.status = .running := by simpa [isRunning] using hr
    exact aside (.take hm) (bind (process hrunning) ih)

theorem deliverDueWithin : Extends m id i (i.deliverDueWithin env fuel) := by
  fun_induction Interpreter.deliverDueWithin env fuel i with
  | case1 => exact pure
  | case2 => exact pure
  | case3 => exact fun _ _ _ _ h => by cases h
  | case4 i _ due rest fuel hdue ih =>
    exact errand (.deliver hdue) fun s _ => bind drainWithin fun j => ih j

theorem send {e : Event} : Extends m id i (i.send env e) := by
  rw [Interpreter.send]
  split
  · exact aside (.queue e) drainWithin
  · exact pure

theorem poll : Extends m id i (i.poll env) := by
  rw [Interpreter.poll]
  split
  · exact errand (.poll env) fun _ _ => bind deliverDueWithin fun _ => drainWithin
  · exact pure

theorem finishTasks : Extends m id i i.finishTasks :=
  errand .finishTasks fun _ _ => pure

theorem stop : Extends m id i (i.stop env) := by
  by_cases hs : i.shell.status = .stopped
  case pos =>
    have hstop : i.stop env = Pure.pure i := by rw [Interpreter.stop, hs]
    rw [hstop]
    exact pure
  case neg => exact fun _ _ _ hi h => ⟨_, hi.stop hs h⟩

end Extends

theorem start_biography {y : Turn C (Interpreter C S A)} (hy : y = (spawned m id).start env)
    (h : y.outcome = .ok i) : ∃ p later, (Macrostep.run m.tree m.registry m.config
      (commit env m.registry) { (spawned m id : Interpreter C S A).shell with status := .running }
      (.unstarted m.context) .start).outcome = .ok p ∧
        Biography m id (.ran .start p :: later) y.posts i := by
  subst hy
  have hnot : (spawned m id : Interpreter C S A).shell.status = .notStarted := rfl
  rw [start, if_pos hnot] at h ⊢
  obtain ⟨j, hj, hi⟩ := Turn.bind_eq_ok.mp h
  obtain ⟨p, hp, _⟩ := Turn.bind_eq_ok.mp hj
  have hstart := Biography.start rfl hp hj
  obtain ⟨later, hlater⟩ := Extends.drainWithin _ _ i hstart hi
  exact ⟨p, later, hp, Turn.posts_bind hj ▸ hlater⟩

-- What the owner is told in the course of the life of `id`.
structure Reported (config : Config) (id : String) (moments : List (Moment C A))
    (events : List Event) : Prop where
  once : events.length ≤ 1
  completed {x data} : x ∈ moments → x.Completes data → events = [.doneInvoke id data]
  failed {x err} : x ∈ moments → x.Fails config err → events = [.errorPlatform id (errorData err)]
  -- an initial microstep that is not committed is a failure
  uncommitted {p} : .ran .start p ∈ moments → p.microsteps = 0 →
    ∃ err, (Moment.ran .start p).Fails config err
  exclusive {x y data err} : x ∈ moments → x.Completes data → y ∈ moments → ¬ y.Fails config err
  stopped : .stopped ∈ moments → events = []
  only {e} : e ∈ events → ∃ x ∈ moments,
    (∃ data, x.Completes data ∧ e = .doneInvoke id data) ∨
      ∃ err, x.Fails config err ∧ e = .errorPlatform id (errorData err)

namespace Standing

omit [ActorModel C S A]

theorem report_of_last (h : Standing m moments posts i) (hx : x ∈ moments)
    (hlast : x.isLast m.config = true) : Post.reports posts = (x.report? m.config).toList := by
  rcases h.going_or_gone with hgo | ⟨⟨before, last, rfl, hnot, _, hr⟩, _⟩
  · simp [hgo.not_last x hx] at hlast
  · rcases List.mem_append.mp hx with hx | hx
    · simp [hnot x hx] at hlast
    · obtain rfl := List.mem_singleton.mp hx
      exact hr

theorem report_of_mem {post : Post} (h : Standing m moments posts i)
    (hp : post ∈ Post.reports posts) : ∃ x ∈ moments, x.report? m.config = some post := by
  rcases h.going_or_gone with hgo | ⟨⟨before, last, rfl, _, _, hr⟩, _⟩
  · simp [hgo.reports] at hp
  · rw [hr, Option.mem_toList] at hp
    exact ⟨last, by simp, hp⟩

theorem length_reports_le (h : Standing m moments posts i) : (Post.reports posts).length ≤ 1 := by
  rcases h.going_or_gone with hgo | ⟨⟨_, last, _, _, _, hr⟩, _⟩
  · simp [hgo.reports]
  · rw [hr]
    exact Option.length_toList_le

theorem reports_of_report {post : Post} (h : Standing m moments posts i) (hx : x ∈ moments)
    (hp : x.report? m.config = some post) : Post.reports posts = [post] := by
  have hlast : x.isLast m.config = true := by
    cases x with
    | stopped => rfl
    | ran => simp [Moment.isLast, hp]
  rw [h.report_of_last hx hlast, hp]
  rfl

theorem reported (h : Standing m moments posts i) :
    Reported m.config id moments ((Post.reports posts).map (Post.toEvent id)) := by
  have hcompleted {x data} (hx : x ∈ moments) (hc : x.Completes data) :
      Post.reports posts = [.resolve data] :=
    h.reports_of_report hx (Moment.report_of_completes hc)
  have hfailed {x err} (hx : x ∈ moments) (hf : x.Fails m.config err) :
      Post.reports posts = [.reject (errorData err)] :=
    h.reports_of_report hx (Moment.report_of_fails (h.coherent x hx) hf)
  exact {
    once := by simpa using h.length_reports_le
    completed := fun hx hc => by simp [hcompleted hx hc, Post.toEvent]
    failed := fun hx hf => by simp [hfailed hx hf, Post.toEvent]
    uncommitted := fun {p} hx hm => by
      cases h.coherent _ hx with
      | ran _ _ he =>
        obtain ⟨err, he⟩ := Option.ne_none_iff_exists'.mp (he rfl hm)
        exact ⟨err, .uncommitted hm he⟩
    exclusive := fun hx hc hy hf => by
      cases (hcompleted hx hc).symm.trans (hfailed hy hf)
    stopped := fun hx => by simp [h.report_of_last hx rfl, Moment.report?]
    only := fun he => by
      obtain ⟨post, hp, rfl⟩ := List.mem_map.mp he
      obtain ⟨x, hx, hr⟩ := h.report_of_mem hp
      refine ⟨x, hx, ?_⟩
      rcases Moment.completes_or_fails_of_report (h.coherent x hx) hr with
        ⟨data, hc, rfl⟩ | ⟨err, hf, rfl⟩
      · exact .inl ⟨data, hc, rfl⟩
      · exact .inr ⟨err, hf, rfl⟩ }

end Standing

end Interpreter

-- What is done with an actor.
inductive ActorModel.Handles (C : Type) {S A : Type} [ActorModel C S A] (a : A) :
    Turn C A → Prop
  | send (env : Env) (e : Event) : Handles C a (ActorModel.send env e a)
  | stop (env : Env) : Handles C a (ActorModel.stop env a)
  | poll (env : Env) : Handles C a (ActorModel.poll env a)
  | finishTasks : Handles C a (ActorModel.finishTasks a)

-- The life of an actor that is started from `service`, and all that it has posted to its owner.
inductive ActorModel.Life (service : S) (q : StartRequest C) : List Post → A → Prop
  | start {env a} {x : Turn C (Except ActionError A)} : x = ActorModel.start env service q →
      x.outcome = .ok (.ok a) → Life service q x.posts a
  | handle {posts a y b} : Life service q posts a → ActorModel.Handles C a y →
      y.outcome = .ok b → Life service q (posts ++ y.posts) b

-- The machine that a service runs as a child, with its own context or with one made for it.
def Machine.forRequest (m : Machine C S) (context : Option (C → Event → C))
    (q : StartRequest C) : Machine C S :=
  ((context.map fun make => make q.context q.event).map m.withContext).getD m

section Child

open ActorModel Interpreter

variable {m : Machine C S} {context : Option (C → Event → C)} {q : StartRequest C}
  {env : Env} {posts : List Post} {a : Actor (Interpreter C S A)}

omit [ActorModel C S A] in
theorem Turn.bind_pure_ok {α β : Type} {x : Turn C α} {g : α → β} {b : β}
    (h : (x >>= fun a => pure (g a)).outcome = .ok b) :
    ∃ a, x.outcome = .ok a ∧ b = g a ∧ (x >>= fun a => pure (g a)).posts = x.posts := by
  obtain ⟨a, ha, h⟩ := Turn.bind_eq_ok.mp h
  cases h
  exact ⟨a, ha, rfl, by rw [Turn.posts_bind ha]; exact List.append_nil _⟩

theorem Actor.start_machine_ok {x : Turn C (Except ActionError (Actor (Interpreter C S A)))}
    (hx : x = ActorModel.start env (.machine m context) q) (h : x.outcome = .ok (.ok a)) :
    ∃ i, a = .machine i ∧ ∃ y : Turn C (Interpreter C S A),
      y = (spawned (m.forRequest context q) q.actor).start env ∧ y.outcome = .ok i ∧
      x.posts = y.posts := by
  subst hx
  cases context with
  | none =>
    obtain ⟨i, hi, ha, hposts⟩ := Turn.bind_pure_ok h
    cases ha
    exact ⟨i, rfl, _, rfl, hi, hposts⟩
  | some make =>
    obtain ⟨_, _, h⟩ := Turn.bind_eq_ok.mp h
    obtain ⟨i, hi, ha, hposts⟩ := Turn.bind_pure_ok h
    cases ha
    exact ⟨i, rfl, _, rfl, hi, hposts⟩

theorem ActorModel.Life.biography
    (h : Life (.machine m context : Service C (Machine C S)) q posts a) :
    ∃ i, a = .machine i ∧ ∃ moments,
      Biography (m.forRequest context q) q.actor moments posts i := by
  induction h with
  | start hx ho =>
    obtain ⟨i, rfl, _, hy, hi, hposts⟩ := Actor.start_machine_ok hx ho
    obtain ⟨_, _, _, hbiography⟩ := start_biography hy hi
    exact ⟨i, rfl, _, hposts ▸ hbiography⟩
  | @handle posts _ _ _ _ hy hb ih =>
    obtain ⟨i, rfl, moments, hi⟩ := ih
    have hextends {x : Turn C (Interpreter C S A)} {b : Actor (Interpreter C S A)}
        (hx : Extends (m.forRequest context q) q.actor i x)
        (hb : (x >>= fun j => pure (Actor.machine j)).outcome = .ok b) :
        ∃ j, b = .machine j ∧ ∃ moments, Biography (m.forRequest context q) q.actor moments
          (posts ++ (x >>= fun j => pure (Actor.machine j)).posts) j := by
      obtain ⟨j, hj, rfl, hposts⟩ := Turn.bind_pure_ok hb
      obtain ⟨later, hlater⟩ := hx _ _ j hi hj
      exact ⟨j, rfl, _, hposts ▸ hlater⟩
    cases hy with
    | send env e => exact hextends .send hb
    | stop env => exact hextends .stop hb
    | poll env => exact hextends .poll hb
    | finishTasks => exact hextends .finishTasks hb

-- A child tells its owner at most once that it is over: that it is done, or that it failed. If its
-- owner stops it first, it tells nothing.
theorem ActorModel.Life.reports_once
    (h : Life (.machine m context : Service C (Machine C S)) q posts a) :
    ∃ i, a = .machine i ∧
      (∃ moments, Biography (m.forRequest context q) q.actor moments posts i) ∧
      ∀ moments, Biography (m.forRequest context q) q.actor moments posts i →
        Reported m.config q.actor moments ((Post.reports posts).map (Post.toEvent q.actor)) := by
  obtain ⟨i, ha, hi⟩ := h.biography
  have hconfig : (m.forRequest context q).config = m.config := by cases context <;> rfl
  exact ⟨i, ha, hi, fun moments hi => hconfig ▸ hi.standing.reported⟩

-- An errand that is run for an owner, who is told what it ends with.
def errandChild : NestedMachine Unit 0 where
  tree := errandTree
  registry := {}
  context := ()

def errandRequest : StartRequest Unit := ⟨"m:invocation[0]", "errand", (), .init⟩

theorem ActorModel.Life.reports_once_errand : ∃ (posts : List Post) (i : NestedInterpreter Unit 0),
    errand.build "m" = .ok errandChild.tree ∧
    Life (.machine errandChild none : Service Unit (NestedMachine Unit 0)) errandRequest posts
      (Actor.machine i) ∧
    (Post.reports posts).map (Post.toEvent "m:invocation[0]") =
      [.doneInvoke "m:invocation[0]" (.int 1)] := by
  obtain ⟨step, hm, hact, hd, hj⟩ : ∃ step, Microstep.initial errandChild.tree errandChild.registry
      .init () ∅ = .ok step ∧ step.actions = [] ∧ step.done = true ∧
        step.doneData = some (.int 1) :=
    Microstep.exists_eq_ok (by decide +kernel)
  let i : NestedInterpreter Unit 0 := .spawned errandChild errandRequest.actor
  have hcommit : (commit loaderEnv errandChild.registry
      { i.shell with status := .running } step .init).outcome =
        .ok ({ i.shell with status := .running }, none) := by
    rw [commit, hact]
    rfl
  obtain ⟨s, hstart, _⟩ := start_of_done (i := i) rfl hm hd hcommit (List.forall_mem_nil _)
  have hactor : (ActorModel.start loaderEnv (.machine errandChild none :
      Service Unit (NestedMachine Unit 0)) errandRequest).outcome =
        .ok (.ok (Actor.machine { i with state := i.state.after step, shell := s })) :=
    Actor.start_machine hstart
  have hlife := Life.start rfl hactor
  obtain ⟨_, hi, _, hall⟩ := hlife.reports_once
  obtain ⟨_, ha, y, hy, hlaunched, hposts⟩ := Actor.start_machine_ok rfl hactor
  obtain ⟨p, later, hp, hbiography⟩ := start_biography hy hlaunched
  cases hi
  cases ha
  have hreported := hall _ (hposts ▸ hbiography)
  have hrun : (Macrostep.run errandChild.tree errandChild.registry errandChild.config
      (commit loaderEnv errandChild.registry) { i.shell with status := .running }
      (.unstarted ()) .start).outcome = _ := Macrostep.run_of_started (.start hm hcommit)
  rw [Macrostep.loop_of_stops _ (.done (by simp [MachineState.after, hd]))] at hrun
  obtain ⟨hdone, hdata⟩ : p.state.done = true ∧ p.state.doneData = some (.int 1) := by
    rw [Except.ok.inj (hp.symm.trans hrun)]
    simp [Progress.accept, MachineState.after, hd, hj]
  have hevents := hreported.completed List.mem_cons_self (.intro hdone)
  rw [hdata] at hevents
  exact ⟨_, _, errand_build, hlife, hevents⟩

end Child

end Statechart
