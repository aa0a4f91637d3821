import Statechart.Proofs.Actors

-- The trace of what is carried out: the actions that were performed, in order, the actors that were
-- started on the way, and those that have left. Keeping the trace changes nothing else.

namespace Statechart

-- Actions, each with the error by which it failed if it did.
abbrev Record := List (Planned × Option ExecutionError)

namespace Record

variable {record record' : Record}

def actions (record : Record) : List Planned := record.map (·.1)

-- The actions that did not fail.
def carried (record : Record) : List Planned :=
  (record.filter fun x => x.2.isNone).map (·.1)

def Flawless (record : Record) : Prop := ∀ x ∈ record, x.2 = none

theorem actions_append : actions (record ++ record') = record.actions ++ record'.actions :=
  List.map_append

theorem carried_append : carried (record ++ record') = record.carried ++ record'.carried := by
  simp [carried]

theorem actions_of_done (planned : List Planned) : actions (planned.map (·, none)) = planned := by
  simp [actions, Function.comp_def]

theorem carried_of_flawless (h : record.Flawless) : record.carried = record.actions := by
  rw [carried, actions, List.filter_eq_self.mpr fun x hx => by simp [h x hx]]

end Record

-- An action that was performed, and the shell before it and after it.
structure Performance (C A : Type) where
  env : Env
  context : C
  event : Event
  action : Planned
  before : Shell C A
  after : Shell C A
  failure : Option ExecutionError

structure Trace (C A : Type) where
  performances : List (Performance C A) := []
  -- an id for each time that an actor was started
  started : List String := []
  -- the actors that were removed, as they were after that
  retired : Arena A := []

def Trace.record {C A : Type} (t : Trace C A) : Record :=
  t.performances.map fun p => (p.action, p.failure)

-- A shell, and what has led to it.
abbrev Traced (C A : Type) := Shell C A × Trace C A

variable {C S A : Type} [ActorModel C S A] (env : Env)

-- What performing the action comes to.
def Performance.turn (r : Registry C S) (p : Performance C A) :
    Turn C (Shell C A × Option ExecutionError) :=
  p.before.perform p.env r p.context p.event p.action

-- The action was carried out as it says, unless it failed.
structure Performance.Genuine (r : Registry C S) (p : Performance C A) : Prop where
  outcome : (p.turn r).outcome = .ok (p.after, p.failure)
  carried : p.failure = none → p.before.Carried p.env p.action p.after
  tells : p.failure = none → p.before.Tells r p.context p.event p.action p.after (p.turn r)

namespace Shell

-- Does what `removeActor` does, and notes who leaves.
def retire (s : Traced C A) (id : String) : Turn C (Traced C A) :=
  match s.1.actors.find? id with
  | none => pure s
  | some a => do
    let shell := { s.1 with actors := s.1.actors.erase id }
    let (a, shell) ← shell.runActor id (ActorModel.stop env a)
    pure (shell, { s.2 with retired := s.2.retired ++ [{ id := id, actor := a }] })

-- Does what `insertActor` does, and notes who leaves.
def enroll (s : Traced C A) (x : ArenaEntry A) : Turn C (Traced C A) := do
  let s ← retire env s x.id
  pure ({ s.1 with actors := s.1.actors ++ [x] }, s.2)

-- Does what `spawn` does, and notes who is started and who leaves.
def hire (s : Traced C A) (logic : S) (request : StartRequest C) (autoForward : Bool) :
    Turn C (Traced C A) := do
  let id := request.actor
  let (started, shell) ← s.1.runActor id (ActorModel.start env logic request)
  let s := (shell, { s.2 with started := s.2.started ++ [id] })
  match started with
  | .ok a => enroll env s { id := id, autoForward := autoForward, actor := a }
  | .error e => do
    .warn .serviceNotStarted
    let s ← enroll env s { id := id, actor := ActorModel.settled C }
    pure (s.1.receive id [.reject (.str e.message)], s.2)

-- Does what `perform` does, and notes who is started and who leaves.
def staff (r : Registry C S) (x : C) (e : Event) (s : Traced C A) :
    Planned → Turn C (Traced C A × Option ExecutionError)
  | .spawn service id _ autoForward =>
    match r.services.find? service with
    | none => pure (s, some (.unknownService service))
    | some logic => do
      let request : StartRequest C := { actor := id, service := service, context := x, event := e }
      pure (← hire env s logic request autoForward, none)
  | .stop id => do
    pure (← retire env s id, none)
  | a => do
    let (shell, failure) ← s.1.perform env r x e a
    pure ((shell, s.2), failure)

-- The same, and notes the action itself.
def performTracing (r : Registry C S) (x : C) (e : Event) (s : Traced C A) (a : Planned) :
    Turn C (Traced C A × Option ExecutionError) := do
  let (s', failure) ← staff env r x e s a
  let p : Performance C A :=
    { env, context := x, event := e, action := a, before := s.1, after := s'.1, failure }
  pure ((s'.1, { s'.2 with performances := s'.2.performances ++ [p] }), failure)

def performAllTracing (r : Registry C S) (x : C) (e : Event) :
    List Planned → Traced C A → Turn C (Traced C A × Option ExecutionError)
  | [], s => pure (s, none)
  | a :: rest, s => do
    let (s, failure) ← performTracing env r x e s a
    match failure with
    | some err => pure (s, some err)
    | none => performAllTracing r x e rest s

def performEachTracing (r : Registry C S) (x : C) (e : Event) (s : Traced C A)
    (actions : List Planned) : Turn C (Traced C A) :=
  actions.foldlM (fun s a => do
    let (s, failure) ← performTracing env r x e s a
    let shell ← s.1.reportAll failure.toList
    pure (shell, s.2)) s

variable {env} {r : Registry C S} {x : C} {e : Event} {s s' : Traced C A} {a : Planned}
  {actions : List Planned} {failure : Option ExecutionError}

section Forget

theorem retire_forget (s : Traced C A) (id : String) :
    Prod.fst <$> retire env s id = s.1.removeActor env id := by
  rw [retire, removeActor]
  cases s.1.actors.find? id with
  | none => exact map_pure ..
  | some a => simp only [map_bind, map_pure]

theorem enroll_forget (env : Env) (s : Traced C A) (x : ArenaEntry A) :
    Prod.fst <$> enroll env s x = s.1.insertActor env x := by
  simp only [enroll, insertActor, map_bind, map_pure, ← retire_forget, bind_map_left]

theorem hire_forget (s : Traced C A) (logic : S) (request : StartRequest C)
    (autoForward : Bool) :
    Prod.fst <$> hire env s logic request autoForward =
      s.1.spawn env logic request autoForward := by
  rw [hire, spawn, map_bind]
  refine bind_congr fun y => ?_
  obtain ⟨started, shell⟩ := y
  cases started with
  | ok a => exact enroll_forget ..
  | error err =>
    simp only [map_bind, map_pure]
    refine bind_congr fun _ => ?_
    rw [← enroll_forget env (shell, _), bind_map_left]

theorem staff_forget (s : Traced C A) (a : Planned) :
    (fun y => (y.1.1, y.2)) <$> staff env r x e s a = s.1.perform env r x e a := by
  cases a with
  | spawn service id owner autoForward =>
    simp only [staff, perform]
    cases r.services.find? service with
    | none => exact map_pure ..
    | some logic =>
      simp only [map_bind, map_pure, ← hire_forget, bind_map_left]
  | stop id =>
    simp only [staff, perform, map_bind, map_pure, ← retire_forget, bind_map_left]
  | _ =>
    simp only [staff, map_bind, map_pure]
    exact bind_pure _

theorem performTracing_forget (s : Traced C A) (a : Planned) :
    (fun y => (y.1.1, y.2)) <$> performTracing env r x e s a = s.1.perform env r x e a := by
  rw [← staff_forget, performTracing, map_bind, ← bind_pure_comp]
  exact bind_congr fun _ => map_pure ..

theorem performAllTracing_forget (s : Traced C A) (actions : List Planned) :
    (fun y => (y.1.1, y.2)) <$> performAllTracing env r x e actions s =
      s.1.performAll env r x e actions := by
  induction actions generalizing s with
  | nil => exact map_pure ..
  | cons a rest ih =>
    rw [performAllTracing, performAll, ← performTracing_forget, map_bind, bind_map_left]
    refine bind_congr fun y => ?_
    obtain ⟨s', failure⟩ := y
    cases failure with
    | none => exact ih s'
    | some err => exact map_pure ..

theorem performEachTracing_forget (s : Traced C A) (actions : List Planned) :
    Prod.fst <$> performEachTracing env r x e s actions = s.1.performEach env r x e actions := by
  induction actions generalizing s with
  | nil => exact map_pure ..
  | cons a rest ih =>
    simp only [performEachTracing, performEach, List.foldlM_cons, map_bind, bind_assoc, pure_bind,
      ← performTracing_forget, bind_map_left] at ih ⊢
    refine bind_congr fun y => ?_
    refine bind_congr fun shell => ?_
    exact ih (shell, y.1.2)

end Forget

-- The actions were performed one after the other. In between errors were reported, and nothing else
-- happened.
inductive Performs (r : Registry C S) (s : Shell C A) : List (Performance C A) → Shell C A → Prop
  | nil : Performs r s [] s
  | perform {ps p} : Performs r s ps p.before → p.Genuine r → Performs r s (ps ++ [p]) p.after
  | note {ps s' s''} : Performs r s ps s' → s'.Noted s'' → Performs r s ps s''

-- What becomes of the actors that the interpreter knows, action by action.
structure Follows (record : Record) (s s' : Shell C A) : Prop where
  status : s'.status = s.status
  ids : s'.actors.ids = record.carried.foldl Planned.onIds s.actors.ids

section Performs

variable {s s' s'' : Shell C A} {record record' : Record} {t : Trace C A}

theorem perform_follows (h : (s.perform env r x e a).outcome = .ok (s', failure)) :
    Follows [(a, failure)] s s' := by
  cases failure with
  | none =>
    have hc := perform_ok h
    obtain ⟨_, hf⟩ := hc.frame
    exact ⟨by rw [hf], hc.ids⟩
  | some err =>
    have hp := perform_failed h
    have ho : Obeys env [] s s' := hp.obeys
    exact ⟨ho.status, congrArg Arena.ids hp.actors⟩

theorem Follows.trans (h : Follows record s s') (h' : Follows record' s' s'') :
    Follows (record ++ record') s s'' :=
  ⟨h'.status.trans h.status, by rw [h'.ids, h.ids, Record.carried_append, List.foldl_append]⟩

theorem Follows.noted (h : Follows record s s') (hn : s'.Noted s'') : Follows record s s'' :=
  ⟨hn.status.trans h.status, (congrArg Arena.ids hn.actors).trans h.ids⟩

theorem Performs.follows (h : Performs r s t.performances s') : Follows t.record s s' := by
  obtain ⟨ps, _, _⟩ := t
  change Performs r s ps s' at h
  change Follows (ps.map fun p => (p.action, p.failure)) s s'
  induction h with
  | nil => exact ⟨rfl, rfl⟩
  | perform _ hp ih =>
    rw [List.map_append]
    exact ih.trans (perform_follows hp.outcome)
  | note _ hn ih => exact ih.noted hn

end Performs

-- One thing that happens while plans are carried out.
inductive Proceeds (r : Registry C S) : Traced C A → Traced C A → Prop
  | perform {env' y e n n' b err} :
      (performTracing env' r y e n b).outcome = .ok (n', err) → Proceeds r n n'
  | note {shell shell' t} : shell.Noted shell' → Proceeds r (shell, t) (shell', t)

theorem performAllTracing_proceeds
    (h : (performAllTracing env r x e actions s).outcome = .ok (s', failure)) :
    Relation.ReflTransGen (Proceeds r) s s' := by
  induction actions generalizing s with
  | nil =>
    cases h
    exact .refl
  | cons a rest ih =>
    obtain ⟨⟨s₁, failure'⟩, h₁, h⟩ := Turn.bind_eq_ok.mp h
    cases failure' with
    | some err =>
      cases h
      exact .single (.perform h₁)
    | none => exact .head (.perform h₁) (ih h)

theorem exists_performEachTracing {shell shell' : Shell C A}
    (h : (shell.performEach env r x e actions).outcome = .ok shell') :
    ∃ t, (performEachTracing env r x e (shell, {}) actions).outcome = .ok (shell', t) := by
  rw [← performEachTracing_forget (shell, {})] at h
  obtain ⟨⟨_, t⟩, ht, rfl⟩ := Turn.map_eq_ok.mp h
  exact ⟨t, ht⟩

theorem performEachTracing_proceeds
    (h : (performEachTracing env r x e s actions).outcome = .ok s') :
    Relation.ReflTransGen (Proceeds r) s s' := by
  induction actions generalizing s with
  | nil =>
    cases h
    exact .refl
  | cons a rest ih =>
    obtain ⟨s₂, h₂, h⟩ := Turn.bind_eq_ok.mp h
    obtain ⟨⟨s₁, failure⟩, h₁, h₂⟩ := Turn.bind_eq_ok.mp h₂
    obtain ⟨shell, h₃, hn, _⟩ := reportAll_ok failure.toList s₁.1
    rw [Turn.outcome_bind, h₃] at h₂
    cases h₂
    exact .head (.perform h₁) (.head (.note hn) (ih h))

-- At most one actor is moved from the arena to those that have left, and it is stopped then.
structure Retires (C : Type) [ActorModel C S A] (s s' : Traced C A) : Prop where
  performances : s'.2.performances = s.2.performances
  started : s'.2.started = s.2.started
  ids : (s.1.actors.ids ++ s.2.retired.ids).Perm (s'.1.actors.ids ++ s'.2.retired.ids)
  kept : s'.1.actors ⊆ s.1.actors
  stopped {x : ArenaEntry A} : x ∈ s'.2.retired → x ∈ s.2.retired ∨ ∃ y ∈ s.1.actors, ∃ env,
    (ActorModel.stop (C := C) env y.actor).outcome = .ok x.actor

theorem retire_ok {id : String} (h : (retire env s id).outcome = .ok s') : Retires C s s' := by
  rw [retire] at h
  split at h
  case h_1 =>
    cases h
    exact ⟨rfl, rfl, .refl _, List.Subset.refl _, .inl⟩
  case h_2 a ha =>
    obtain ⟨⟨b, shell⟩, h₁, h⟩ := Turn.bind_eq_ok.mp h
    obtain ⟨hb, hp⟩ := runActor_ok h₁
    cases h
    have hid : id ∈ s.1.actors.ids := by
      by_contra hn
      simp [Arena.find?_eq_none.mpr hn] at ha
    refine ⟨rfl, rfl, ?_, ?_, fun {x} hx => ?_⟩
    · rw [hp.actors, Arena.ids_erase]
      refine List.perm_iff_count.mpr fun c => ?_
      have hc := (List.perm_cons_erase hid).count_eq c
      simp only [Arena.ids, List.map_append, List.map_cons, List.map_nil, List.count_append,
        List.count_cons, List.count_nil] at hc ⊢
      omega
    · exact hp.actors ▸ List.eraseP_subset
    · rcases List.mem_append.mp hx with hx | hx
      · exact .inl hx
      · obtain rfl := List.mem_singleton.mp hx
        obtain ⟨y, hy, rfl⟩ := Option.map_eq_some_iff.mp ha
        exact .inr ⟨y, List.mem_of_find?_eq_some hy, env, hb⟩

-- An actor is noted when it is started, and it takes its place in the arena, also when it is
-- nothing but the trace of a failure.
theorem hire_ok {logic : S} {request : StartRequest C} {autoForward : Bool}
    (h : (hire env s logic request autoForward).outcome = .ok s') :
    ∃ shell x s₁, x.id = request.actor ∧ shell.actors = s.1.actors ∧
      (x.actor = ActorModel.settled C ∨
        (ActorModel.start env logic request).outcome = .ok (.ok x.actor)) ∧
      Retires C (shell, { s.2 with started := s.2.started ++ [x.id] }) s₁ ∧
      s'.1.actors = s₁.1.actors ++ [x] ∧ s'.2 = s₁.2 := by
  obtain ⟨⟨started, shell⟩, h₁, h⟩ := Turn.bind_eq_ok.mp h
  obtain ⟨ha, hp⟩ := runActor_ok h₁
  cases started with
  | ok a =>
    obtain ⟨s₁, h₂, h⟩ := Turn.bind_eq_ok.mp h
    cases h
    exact ⟨shell, ⟨request.actor, autoForward, a⟩, s₁, rfl, hp.actors, .inr ha, retire_ok h₂, rfl,
      rfl⟩
  | error err =>
    obtain ⟨_, _, h⟩ := Turn.bind_eq_ok.mp h
    obtain ⟨s₂, h₂, h⟩ := Turn.bind_eq_ok.mp h
    obtain ⟨s₁, h₁, h₂⟩ := Turn.bind_eq_ok.mp h₂
    cases h₂
    cases h
    exact ⟨shell, ⟨request.actor, false, _⟩, s₁, rfl, hp.actors, .inl rfl, retire_ok h₁, rfl, rfl⟩

-- What an action does to the actors and to the trace.
theorem staff_cases (h : (staff env r x e s a).outcome = .ok (s', failure)) :
    (s.1.actors.Evolves C s'.1.actors ∧ s'.2 = s.2) ∨
      (∃ id, (retire env s id).outcome = .ok s') ∨
      ∃ logic request autoForward, (hire env s logic request autoForward).outcome = .ok s' := by
  have hother (ha : ∀ id, a.endsActor id = false)
      (h : (do
        let (shell, failure) ← s.1.perform env r x e a
        pure ((shell, s.2), failure)).outcome = Except.ok (s', failure)) :
      s.1.actors.Evolves C s'.1.actors ∧ s'.2 = s.2 := by
    obtain ⟨_, h₁, h⟩ := Turn.bind_eq_ok.mp h
    cases h
    exact ⟨perform_evolves ha h₁, rfl⟩
  cases a with
  | spawn service id owner autoForward =>
    simp only [staff] at h
    split at h
    case h_1 =>
      cases h
      exact .inl ⟨.refl _, rfl⟩
    case h_2 =>
      obtain ⟨s₁, h₁, h⟩ := Turn.bind_eq_ok.mp h
      cases h
      exact .inr (.inr ⟨_, _, _, h₁⟩)
  | stop id =>
    obtain ⟨s₁, h₁, h⟩ := Turn.bind_eq_ok.mp h
    cases h
    exact .inr (.inl ⟨_, h₁⟩)
  | _ => exact .inl (hother (fun _ => rfl) h)

theorem staff_performances (h : (staff env r x e s a).outcome = .ok (s', failure)) :
    s'.2.performances = s.2.performances := by
  rcases staff_cases h with ⟨_, ht⟩ | ⟨_, h⟩ | ⟨_, _, _, h⟩
  · rw [ht]
  · exact (retire_ok h).performances
  · obtain ⟨_, _, _, _, _, _, hr, _, ht⟩ := hire_ok h
    rw [ht, hr.performances]

-- What is noted of an action is what was performed.
theorem performTracing_ok (h : (performTracing env r x e s a).outcome = .ok (s', failure)) :
    ∃ n, (staff env r x e s a).outcome = .ok (n, failure) ∧ s'.1 = n.1 ∧ ∃ p : Performance C A,
      p.Genuine r ∧ p.before = s.1 ∧ p.after = s'.1 ∧ p.action = a ∧ p.failure = failure ∧
      s'.2 = { n.2 with performances := s.2.performances ++ [p] } := by
  obtain ⟨⟨n, failure'⟩, hn, h⟩ := Turn.bind_eq_ok.mp h
  cases h
  have hp : (s.1.perform env r x e a).outcome = .ok (n.1, failure) := by
    rw [← staff_forget]
    exact Turn.map_eq_ok.mpr ⟨_, hn, rfl⟩
  refine ⟨n, hn, rfl, ⟨env, x, e, a, s.1, n.1, failure⟩, ⟨hp, ?_, ?_⟩, rfl, rfl, rfl, rfl, ?_⟩
  · rintro rfl
    exact perform_ok hp
  · rintro rfl
    exact perform_tells hp
  · rw [← staff_performances hn]

theorem performs_of_proceeds {shell shell' : Shell C A} {t : Trace C A}
    (h : Relation.ReflTransGen (Proceeds r) (shell, {}) (shell', t)) :
    Performs r shell t.performances shell' := by
  suffices ∀ n, Relation.ReflTransGen (Proceeds r) (shell, {}) n →
      Performs r shell n.2.performances n.1 from this _ h
  intro n h
  induction h with
  | refl => exact .nil
  | tail _ hs ih =>
    cases hs with
    | perform hp =>
      obtain ⟨_, _, _, p, hg, hbefore, hafter, _, _, ht⟩ := performTracing_ok hp
      rw [ht, ← hafter]
      exact .perform (hbefore ▸ ih) hg
    | note hn => exact ih.note hn

theorem performEachTracing_follows {shell shell' : Shell C A} {t : Trace C A}
    (h : (performEachTracing env r x e (shell, {}) actions).outcome = .ok (shell', t)) :
    Follows t.record shell shell' :=
  (performs_of_proceeds (performEachTracing_proceeds h)).follows

-- Every actor that was there or was started is in the arena or has left it, and those that have
-- left were stopped.
structure Staffed (C : Type) [ActorModel C S A] (Sound AtRest : A → Prop) (ids : List String)
    (s : Traced C A) : Prop where
  sound : ∀ x ∈ s.1.actors, Sound x.actor
  started : (ids ++ s.2.started).Perm (s.1.actors.ids ++ s.2.retired.ids)
  retired : ∀ x ∈ s.2.retired, AtRest x.actor

namespace Staffed

variable {Sound AtRest : A → Prop} {ids : List String}

-- The actions that are noted do not matter.
theorem congr (h : Staffed C Sound AtRest ids s) (ha : s'.1.actors = s.1.actors)
    (hs : s'.2.started = s.2.started) (hr : s'.2.retired = s.2.retired) :
    Staffed C Sound AtRest ids s' :=
  ⟨ha ▸ h.sound, by rw [ha, hs, hr]; exact h.started, hr ▸ h.retired⟩

variable (ho : ActorModel.Obedient C Sound AtRest)
include ho

theorem evolves {t : Trace C A} {shell shell' : Shell C A}
    (h : Staffed C Sound AtRest ids (shell, t)) (he : shell.actors.Evolves C shell'.actors) :
    Staffed C Sound AtRest ids (shell', t) where
  sound := he.all (fun _ _ => ho.acts) h.sound
  started := he.ids ▸ h.started
  retired := h.retired

theorem retires (h : Staffed C Sound AtRest ids s) (hr : Retires C s s') :
    Staffed C Sound AtRest ids s' := by
  refine ⟨fun x hx => h.sound x (hr.kept hx), hr.started ▸ h.started.trans hr.ids,
    fun x hx => ?_⟩
  rcases hr.stopped hx with hx | ⟨y, hy, _, hxy⟩
  · exact h.retired x hx
  · exact ho.stop (h.sound y hy) hxy

theorem hires {logic : S} {request : StartRequest C} {autoForward : Bool}
    (h : Staffed C Sound AtRest ids s)
    (hs : (hire env s logic request autoForward).outcome = .ok s') :
    Staffed C Sound AtRest ids s' := by
  obtain ⟨shell, x, s₁, _, ha, hx, hr, hactors, ht⟩ := hire_ok hs
  have hx : Sound x.actor := by
    rcases hx with hx | hx
    · exact hx ▸ ho.settled
    · exact ho.start hx
  refine ⟨fun y hy => ?_, ?_, fun y hy => ?_⟩
  · rw [hactors] at hy
    rcases List.mem_append.mp hy with hy | hy
    · exact h.sound y (ha ▸ hr.kept hy)
    · exact List.mem_singleton.mp hy ▸ hx
  · rw [ht, hr.started, hactors]
    refine List.perm_iff_count.mpr fun c => ?_
    have hstarted := h.started.count_eq c
    have hids := hr.ids.count_eq c
    simp only [Arena.ids, List.map_append, List.map_cons, List.map_nil, List.count_append, ha] at *
    omega
  · rw [ht] at hy
    rcases hr.stopped hy with hy | ⟨z, hz, _, hyz⟩
    · exact h.retired y hy
    · exact ho.stop (h.sound z (ha ▸ hz)) hyz

theorem proceeds (h : Staffed C Sound AtRest ids s)
    (hs : Relation.ReflTransGen (Proceeds r) s s') : Staffed C Sound AtRest ids s' := by
  induction hs with
  | refl => exact h
  | tail _ hs ih =>
    cases hs with
    | note hn => exact ih.evolves ho (.of_eq hn.actors)
    | perform hp =>
      obtain ⟨n, hn, hshell, _, _, _, _, _, _, ht⟩ := performTracing_ok hp
      have hstaffed : Staffed C Sound AtRest ids n := by
        rcases staff_cases hn with ⟨he, ht⟩ | ⟨_, h⟩ | ⟨_, _, _, h⟩
        · exact (ih.evolves ho he).congr rfl (by rw [ht]) (by rw [ht])
        · exact ih.retires ho (retire_ok h)
        · exact ih.hires ho h
      exact hstaffed.congr (by rw [hshell]) (by rw [ht]) (by rw [ht])

variable {shell shell' : Shell C A} {t t' : Trace C A}

-- Halting puts everybody to rest.
theorem rests (h : Staffed C Sound AtRest ids (shell, t)) (hr : shell.Rests shell') :
    Staffed C Sound AtRest ids (shell', t) ∧ ∀ x ∈ shell'.actors, AtRest x.actor := by
  refine ⟨⟨fun y hy => ?_, hr.ids ▸ h.started, h.retired⟩, fun y hy => ?_⟩
  · obtain ⟨x, hx, _, hxy⟩ := hr.stopped hy
    exact ho.acts (h.sound x hx) (.stop hxy)
  · obtain ⟨x, hx, _, hxy⟩ := hr.stopped hy
    exact ho.stop (h.sound x hx) hxy

-- What is carried out after `shell` goes on with its trace.
theorem extend (h : Staffed C Sound AtRest ids (shell, t)) {n : Shell C A}
    (ha : n.actors = shell.actors)
    (hp : Relation.ReflTransGen (Proceeds r) (n, {}) (shell', t')) :
    Staffed C Sound AtRest ids (shell', {
      performances := t.performances ++ t'.performances
      started := t.started ++ t'.started
      retired := t.retired ++ t'.retired }) := by
  have hn : Staffed C Sound AtRest shell.actors.ids (n, {}) :=
    ⟨ha ▸ h.sound, by simp [ha, Arena.ids], by simp⟩
  have hn := hn.proceeds ho hp
  refine ⟨hn.sound, List.perm_iff_count.mpr fun c => ?_, fun x hx => ?_⟩
  · have hbefore := h.started.count_eq c
    have hsince := hn.started.count_eq c
    simp only [Arena.ids, List.map_append, List.count_append] at *
    omega
  · rcases List.mem_append.mp hx with hx | hx
    · exact h.retired x hx
    · exact hn.retired x hx

end Staffed

-- If nothing fails, what is noted is what was planned.
theorem performAllTracing_record
    (h : (performAllTracing env r x e actions s).outcome = .ok (s', failure)) :
    ∃ done : Record, s'.2.record = s.2.record ++ done ∧
      (failure = none → done = actions.map (·, none)) ∧ (failure ≠ none → ¬ done.Flawless) := by
  induction actions generalizing s with
  | nil =>
    cases h
    exact ⟨[], by simp, fun _ => rfl, by simp⟩
  | cons a rest ih =>
    obtain ⟨⟨s₁, failure'⟩, h₁, h⟩ := Turn.bind_eq_ok.mp h
    have hnoted : s₁.2.record = s.2.record ++ [(a, failure')] := by
      obtain ⟨_, _, _, p, _, _, _, rfl, rfl, ht⟩ := performTracing_ok h₁
      simp [ht, Trace.record]
    cases failure' with
    | some err =>
      cases h
      exact ⟨_, hnoted, nofun, fun _ hall => nomatch hall _ (List.mem_singleton_self _)⟩
    | none =>
      obtain ⟨done, hd, hok, hbad⟩ := ih h
      exact ⟨(a, none) :: done, by simp [hd, hnoted], fun hn => by simp [hok hn],
        fun hn hall => hbad hn fun x hx => hall x (List.mem_cons_of_mem _ hx)⟩

theorem performEachTracing_actions
    (h : (performEachTracing env r x e s actions).outcome = .ok s') :
    s'.2.record.actions = s.2.record.actions ++ actions := by
  induction actions generalizing s with
  | nil =>
    cases h
    simp
  | cons a rest ih =>
    obtain ⟨s₂, h₂, h⟩ := Turn.bind_eq_ok.mp h
    obtain ⟨⟨s₁, failure⟩, h₁, h₂⟩ := Turn.bind_eq_ok.mp h₂
    obtain ⟨_, _, h₂⟩ := Turn.bind_eq_ok.mp h₂
    cases h₂
    rw [ih h]
    obtain ⟨_, _, _, p, _, _, _, rfl, rfl, ht⟩ := performTracing_ok h₁
    simp [ht, Trace.record, Record.actions]

end Shell

end Statechart
