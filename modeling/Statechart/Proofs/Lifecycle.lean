import Statechart.Proofs.Session

-- The life of an interpreter and of everything that it owns, from its making until it has stopped
-- and ever after.

namespace Statechart

variable {C S A : Type} [ActorModel C S A]

-- The status changes in one direction only.
inductive Status.Moves : Status → Status → Prop
  | stay {s} : Moves s s
  | start : Moves .notStarted .running
  | stop {s} : Moves s .stopped

theorem Status.Moves.trans {s s' s'' : Status} (h : s.Moves s') (h' : s'.Moves s'') :
    s.Moves s'' := by
  cases h with
  | stay => exact h'
  | start =>
    cases h' with
    | stay => exact .start
    | stop => exact .stop
  | stop =>
    cases h' with
    | stay | stop => exact .stop

namespace Interpreter

variable {i j : Interpreter C S A} {env : Env} {Sound AtRest : A → Prop}

-- The interpreter is over.
structure Ended (AtRest : A → Prop) (i : Interpreter C S A) : Prop where
  status : i.shell.status = .stopped
  queue : i.shell.scheduler.queue = []
  actors : ∀ x ∈ i.shell.actors, AtRest x.actor

namespace Session

variable {m : Machine C S} {chapters : List (Chapter C A)}

-- Before the start there is nobody to be stopped and nothing to be cancelled.
theorem fresh (h : Session m chapters i) (hn : i.shell.status = .notStarted) :
    i.shell.actors = [] ∧ i.shell.scheduler.queue = [] := by
  obtain rfl := h.nil_iff.mpr hn
  generalize hc : [] = chapters at h
  induction h with
  | new _ _ _ ha hq => exact ⟨ha, hq⟩
  | aside _ hs hq he ih =>
    obtain ⟨ha, hq'⟩ := ih (hs.symm.trans hn) hc
    refine ⟨List.map_eq_nil_iff.mp (he.ids.trans (congrArg Arena.ids ha)), ?_⟩
    rcases hq with hq | hr
    · exact (congrArg Scheduler.queue hq).trans hq'
    · cases (hs.symm.trans hn).symm.trans hr
  | _ => simp at hc

-- One more chapter: plans were carried out, and then errors were reported and listeners called, or
-- the interpreter halted. What has stopped can be stopped again.
inductive Unfolds (i : Interpreter C S A) (x : Chapter C A) (j : Interpreter C S A) : Prop
  | goes {r s s'} : s.actors = i.shell.actors →
      Relation.ReflTransGen (Shell.Proceeds r) (s, {}) (s', x.trace) → s'.Noted j.shell →
      j.shell.status = .running → Unfolds i x j
  | halts {r s s'} : s.actors = i.shell.actors →
      Relation.ReflTransGen (Shell.Proceeds r) (s, {}) (s', x.trace) → s'.Rests j.shell →
      Unfolds i x j
  | stays : x.trace = {} → j = i → Unfolds i x j

theorem unfolds_macrostep {trigger : Trigger} {t : Trace C A} {s : Shell C A}
    (hs : s.status = .running) (ha : s.actors = i.shell.actors)
    (h : (macrostepTracing env { i with shell := s } trigger).outcome = .ok (j, t)) :
    Unfolds i (.ran trigger t) j := by
  obtain ⟨_, s', hp, ⟨_, hn⟩ | hr⟩ := macrostepTracing_cases h
  · have hstatus := (Shell.performs_of_proceeds hp).follows.status
    exact .goes ha hp hn (hn.status.trans (hstatus.trans hs))
  · exact .halts ha hp hr

theorem unfolds_stop {t : Trace C A} (h : Session m chapters i)
    (hj : (i.stopTracing env).outcome = .ok (j, t)) : Unfolds i (.stopped t) j := by
  rcases stopTracing_cases hj with ⟨_, rfl, rfl⟩ | ⟨hn, rfl, rfl⟩ | ⟨_, _, s, hp, hr⟩
  · exact .stays rfl rfl
  · obtain ⟨ha, hq⟩ := h.fresh hn
    have hr : i.shell.Rests { i.shell with status := .stopped } :=
      ⟨rfl, hq, rfl, fun hy => by simp [ha] at hy, [], (List.append_nil _).symm⟩
    exact .halts (r := m.registry) rfl .refl hr
  · exact .halts rfl hp hr

-- Who was started is in the arena or has left it, and in the end everybody is at rest.
structure Accounted (Sound AtRest : A → Prop) (chapters : List (Chapter C A))
    (i : Interpreter C S A) : Prop where
  staffed : Shell.Staffed C Sound AtRest [] (i.shell, Chapter.whole chapters)
  ended : i.shell.status = .stopped → i.Ended AtRest

variable (ho : ActorModel.Obedient C Sound AtRest)
include ho

theorem Accounted.aside {s : Shell C A} (h : Accounted Sound AtRest chapters i)
    (hs : s.status = i.shell.status)
    (hq : s.scheduler = i.shell.scheduler ∨ i.shell.status = .running)
    (he : i.shell.actors.Evolves C s.actors) :
    Accounted Sound AtRest chapters { i with shell := s } where
  staffed := h.staffed.evolves ho he
  ended hstopped := by
    have hi := h.ended (hs.symm.trans hstopped)
    have hkept : ∀ y ∈ s.actors, Sound y.actor ∧ AtRest y.actor :=
      he.all (P := fun a => Sound a ∧ AtRest a)
        (fun _ _ hx hxy => ⟨ho.acts hx.left hxy, ho.rests hx.left hx.right hxy⟩)
        fun x hx => ⟨h.staffed.sound x hx, hi.actors x hx⟩
    refine ⟨hstopped, ?_, fun y hy => (hkept y hy).right⟩
    rcases hq with hq | hr
    · exact (congrArg Scheduler.queue hq).trans hi.queue
    · cases hi.status.symm.trans hr

theorem Accounted.unfolds {x : Chapter C A} (h : Accounted Sound AtRest chapters i)
    (hu : Unfolds i x j) : Accounted Sound AtRest (chapters ++ [x]) j := by
  cases hu with
  | goes ha hp hn hr =>
    have hstaffed := (h.staffed.extend ho ha hp).evolves ho (.of_eq hn.actors)
    rw [← Chapter.whole_append] at hstaffed
    exact ⟨hstaffed, fun hs => by cases hr.symm.trans hs⟩
  | halts ha hp hr =>
    obtain ⟨hstaffed, hrest⟩ := (h.staffed.extend ho ha hp).rests ho hr
    rw [← Chapter.whole_append] at hstaffed
    exact ⟨hstaffed, fun hs => ⟨hs, hr.queue, hrest⟩⟩
  | stays hx hj =>
    subst hj
    have hwhole : Chapter.whole (chapters ++ [x]) = Chapter.whole chapters := by
      simp [Chapter.whole, hx]
    exact ⟨hwhole ▸ h.staffed, h.ended⟩

theorem accounted (h : Session m chapters i) : Accounted Sound AtRest chapters i := by
  induction h with
  | new _ _ hn ha _ =>
    exact ⟨⟨by simp [ha], by simp [ha, Arena.ids, Chapter.whole], by simp [Chapter.whole]⟩,
      fun hs => by cases hn.symm.trans hs⟩
  | aside _ hs hq he ih => exact ih.aside ho hs hq he
  | @start _ i _ _ _ _ _ hj ih =>
    exact ih.unfolds ho (unfolds_macrostep (s := { i.shell with status := .running }) rfl rfl hj)
  | event _ hr hj ih => exact ih.unfolds ho (unfolds_macrostep hr rfl hj)
  | @resume _ i _ _ _ _ _ _ _ _ _ hp ih =>
    let s : Shell C A := { i.shell with status := .running, lastEvent := some .init }
    have ha : s.actors = i.shell.actors := rfl
    have hs := (Shell.performEachTracing_follows hp).status
    exact ih.unfolds ho (.goes ha (Shell.performEachTracing_proceeds hp) (.refl _) hs)
  | @halt _ i _ _ _ _ _ _ _ _ hj ih =>
    let s : Shell C A := { i.shell with status := .running, lastEvent := some .init }
    have ha : s.actors = i.shell.actors := rfl
    obtain ⟨_, rfl, hr⟩ := halt_ok hj
    exact ih.unfolds ho (.halts (r := m.registry) ha .refl hr)
  | stop h hj ih => exact ih.unfolds ho (h.unfolds_stop hj)

end Session

-- An interpreter of a machine, on its own or a child of another one, after whatever was done with
-- it, at whatever times.
inductive Lives : Interpreter C S A → Prop
  | new {m} : Lives (.new m)
  | spawned {m id} : Lives (.spawned m id)
  | operate {e k k'} : Lives k → Operates e k k' → Lives k'

theorem Lives.session (h : Lives i) : ∃ m chapters, Session m chapters i := by
  induction h with
  | new => exact ⟨_, _, .new rfl rfl rfl rfl rfl⟩
  | spawned => exact ⟨_, _, .new rfl rfl rfl rfl rfl⟩
  | operate _ ho ih =>
    obtain ⟨m, _, hs⟩ := ih
    obtain ⟨_, hs⟩ := (continues_traces _).operates ho _ _ hs
    exact ⟨m, _, hs⟩

-- What can become of an interpreter later.
abbrev Later : Interpreter C S A → Interpreter C S A → Prop :=
  Relation.ReflTransGen fun i j => ∃ env, Operates env i j

theorem Later.continues (h : Later i j) : Continues i j := by
  induction h with
  | refl => exact (Plays.refl i).continues
  | tail _ ho ih =>
    obtain ⟨_, ho⟩ := ho
    have hc := (continues_traces _).operates ho
    exact (continues_traces default).trans ih hc

theorem Lives.later (h : Lives i) (hl : Later i j) : Lives j := by
  induction hl with
  | refl => exact h
  | tail _ hs ih =>
    obtain ⟨_, hs⟩ := hs
    exact ih.operate hs

-- An interpreter that has stopped takes no calls any more.
theorem Operates.final (h : Operates env i j) (hs : i.shell.status = .stopped) :
    j.shell.status = .stopped ∧ j.state = i.state ∧ j.shell.scheduler = i.shell.scheduler := by
  cases h with
  | withId | subscribe | unsubscribe | onError | onDone | post => exact ⟨hs, rfl, rfl⟩
  | start h =>
    rw [Interpreter.start, if_neg (by simp [hs])] at h
    cases h
    exact ⟨hs, rfl, rfl⟩
  | send h =>
    rw [Interpreter.send, if_neg (by simp [isRunning, hs])] at h
    cases h
    exact ⟨hs, rfl, rfl⟩
  | poll h =>
    rw [Interpreter.poll, if_neg (by simp [isRunning, hs])] at h
    cases h
    exact ⟨hs, rfl, rfl⟩
  | finishTasks h =>
    obtain ⟨s, h₁, h⟩ := Turn.bind_eq_ok.mp h
    obtain ⟨_, hr⟩ := (Shell.eachActor_ok h₁).left.receives
    cases h
    exact ⟨hr.status.trans hs, rfl, hr.scheduler⟩
  | stop h =>
    simp only [Interpreter.stop, hs] at h
    cases h
    exact ⟨hs, rfl, rfl⟩
  | restore h =>
    rw [Interpreter.restore] at h
    split at h
    case h_1 => cases h
    case h_2 hc => cases (Course.resumption_ok hc).left.symm.trans hs

theorem Later.final (h : Later i j) (hs : i.shell.status = .stopped) :
    j.shell.status = .stopped ∧ j.state = i.state ∧ j.shell.scheduler = i.shell.scheduler := by
  induction h with
  | refl => exact ⟨hs, rfl, rfl⟩
  | tail _ ho ih =>
    obtain ⟨_, ho⟩ := ho
    obtain ⟨hs', hstate, hq⟩ := ih
    obtain ⟨hs, hstate', hq'⟩ := ho.final hs'
    exact ⟨hs, hstate'.trans hstate, hq'.trans hq⟩

theorem Lives.moves (h : Lives i) (ho : Operates env i j) :
    i.shell.status.Moves j.shell.status := by
  cases hi : i.shell.status with
  | notStarted =>
    cases j.shell.status with
    | notStarted => exact .stay
    | running => exact .start
    | stopped => exact .stop
  | running =>
    -- what has begun is not undone
    obtain ⟨m, chapters, hs⟩ := h.session
    obtain ⟨later, hs'⟩ := (continues_traces _).operates ho _ _ hs
    cases hj : j.shell.status with
    | notStarted =>
      have hc := (List.append_eq_nil_iff.mp (hs'.nil_iff.mpr hj)).left
      cases hi.symm.trans (hs.nil_iff.mp hc)
    | running => exact .stay
    | stopped => exact .stop
  | stopped =>
    rw [(ho.final hi).left]
    exact .stay

theorem Lives.moves_later (h : Lives i) (hl : Later i j) :
    i.shell.status.Moves j.shell.status := by
  induction hl with
  | refl => exact .stay
  | tail hl ho ih =>
    obtain ⟨_, ho⟩ := ho
    exact ih.trans ((h.later hl).moves ho)

theorem Lives.ended (ho : ActorModel.Obedient C Sound AtRest) (h : Lives i)
    (hs : i.shell.status = .stopped) : i.Ended AtRest :=
  have ⟨_, _, hi⟩ := h.session
  (hi.accounted ho).ended hs

theorem Lives.sound (ho : ActorModel.Obedient C Sound AtRest) (h : Lives i) :
    ∀ x ∈ i.shell.actors, Sound x.actor :=
  have ⟨_, _, hi⟩ := h.session
  (hi.accounted ho).staffed.sound

end Interpreter

end Statechart
