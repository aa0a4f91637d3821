import Statechart.Proofs.Course

-- What becomes of the actors that an interpreter has while none is started and none removed.

namespace Statechart

-- Something is done with an actor that was started.
inductive Acts (C : Type) {S A : Type} [ActorModel C S A] (a b : A) : Prop
  | send {env e} : (ActorModel.send (C := C) env e a).outcome = .ok b → Acts C a b
  | stop {env} : (ActorModel.stop (C := C) env a).outcome = .ok b → Acts C a b
  | poll {env} : (ActorModel.poll (C := C) env a).outcome = .ok b → Acts C a b
  | finishTasks : (ActorModel.finishTasks (C := C) a).outcome = .ok b → Acts C a b

-- The actors are the same, and to each something was done or nothing.
structure Arena.Evolves (C : Type) {S A : Type} [ActorModel C S A] (arena arena' : Arena A) :
    Prop where
  ids : arena'.ids = arena.ids
  origin {y : ArenaEntry A} : y ∈ arena' →
    ∃ x ∈ arena, x.id = y.id ∧ (y.actor = x.actor ∨ Acts C x.actor y.actor)

-- What interpreters rely on: whatever is done with an actor that was started, it can be stopped,
-- and it stays at rest from then on.
structure ActorModel.Obedient (C : Type) {S A : Type} [ActorModel C S A] (Sound AtRest : A → Prop) :
    Prop where
  start {env : Env} {logic : S} {request : StartRequest C} {a : A} :
    (ActorModel.start env logic request).outcome = .ok (.ok a) → Sound a
  settled : Sound (ActorModel.settled C)
  acts {a b : A} : Sound a → Acts C a b → Sound b
  stop {env : Env} {a b : A} : Sound a → (ActorModel.stop (C := C) env a).outcome = .ok b → AtRest b
  rests {a b : A} : Sound a → AtRest a → Acts C a b → AtRest b

variable {C S A : Type} [ActorModel C S A] {env : Env}

namespace Arena.Evolves

variable {arena arena' : Arena A} {id : String} {a b : A} {P : A → Prop}

theorem refl (arena : Arena A) : arena.Evolves C arena :=
  ⟨rfl, fun {y} hy => ⟨y, hy, rfl, .inl rfl⟩⟩

theorem of_eq (h : arena' = arena) : arena.Evolves C arena' := by
  rw [h]
  exact refl arena

theorem update (ha : arena.find? id = some a) (h : Acts C a b) :
    arena.Evolves C (arena.update id b) where
  ids := ids_update
  origin {y} hy := by
    obtain ⟨x, hx, rfl⟩ := List.mem_map.mp hy
    by_cases hid : x.id = id
    case pos =>
      obtain ⟨z, hz, rfl⟩ := Option.map_eq_some_iff.mp ha
      have hzid : z.id = id := by simpa using List.find?_some hz
      exact ⟨z, List.mem_of_find?_eq_some hz, by simp [hid, hzid], .inr (by simpa [hid] using h)⟩
    case neg => exact ⟨x, hx, by simp [hid], .inl (by simp [hid])⟩

-- What actors keep, whatever is done with them, they all keep.
theorem all (h : arena.Evolves C arena') (hp : ∀ a b, P a → Acts C a b → P b)
    (ha : ∀ x ∈ arena, P x.actor) : ∀ y ∈ arena', P y.actor := by
  intro y hy
  obtain ⟨x, hx, _, hxy | hxy⟩ := h.origin hy
  · exact hxy ▸ ha x hx
  · exact hp _ _ (ha x hx) hxy

end Arena.Evolves

namespace Shell

variable {s s' s'' : Shell C A} {target : Target} {e : Event}

omit [ActorModel C S A] in
theorem eachActor_origin {p : ArenaEntry A → Bool} {f : A → Turn C A}
    (h : (s.eachActor p f).outcome = .ok s') : ∀ y ∈ s'.actors, ∃ x ∈ s.actors, x.id = y.id ∧
      (p x = false ∧ y.actor = x.actor ∨ (f x.actor).outcome = .ok y.actor) := by
  have hgo (rest seen : Arena A) (s : Shell C A)
      (h : (eachActor.go p f rest seen s).outcome = .ok s') : ∀ y ∈ s'.actors, y ∈ seen ∨
      ∃ x ∈ rest, x.id = y.id ∧
        (p x = false ∧ y.actor = x.actor ∨ (f x.actor).outcome = .ok y.actor) := by
    induction rest generalizing seen s with
    | nil =>
      cases h
      exact fun y hy => .inl hy
    | cons x rest ih =>
      intro y hy
      rw [eachActor.go] at h
      split at h
      case isTrue =>
        obtain ⟨⟨a, s₁⟩, h₁, h⟩ := Turn.bind_eq_ok.mp h
        rcases ih _ _ h y hy with hy | ⟨z, hz, hzy⟩
        · rcases List.mem_append.mp hy with hy | hy
          · exact .inl hy
          · obtain rfl := List.mem_singleton.mp hy
            exact .inr ⟨x, List.mem_cons_self, rfl, .inr (runActor_ok h₁).left⟩
        · exact .inr ⟨z, List.mem_cons_of_mem _ hz, hzy⟩
      case isFalse hp =>
        rcases ih _ _ h y hy with hy | ⟨z, hz, hzy⟩
        · rcases List.mem_append.mp hy with hy | hy
          · exact .inl hy
          · obtain rfl := List.mem_singleton.mp hy
            exact .inr ⟨y, List.mem_cons_self, rfl, .inl ⟨by simpa using hp, rfl⟩⟩
        · exact .inr ⟨z, List.mem_cons_of_mem _ hz, hzy⟩
  exact fun y hy => (hgo _ _ _ h y hy).resolve_left (List.not_mem_nil)

theorem eachActor_evolves {p : ArenaEntry A → Bool} {f : A → Turn C A}
    (hf : ∀ a b, (f a).outcome = .ok b → Acts C a b) (h : (s.eachActor p f).outcome = .ok s') :
    s.actors.Evolves C s'.actors where
  ids := (eachActor_ok h).right
  origin hy :=
    have ⟨x, hx, hid, hxy⟩ := eachActor_origin h _ hy
    ⟨x, hx, hid, hxy.imp And.right (hf _ _)⟩

theorem deliver_evolves (h : (s.deliver env target e).outcome = .ok s') :
    s.actors.Evolves C s'.actors := by
  cases target with
  | self =>
    cases h
    exact .refl _
  | parent =>
    have hs : (s.deliver env .parent e).outcome = .ok s := by
      simp only [deliver]
      split <;> rfl
    cases hs.symm.trans h
    exact .refl _
  | actor id =>
    simp only [deliver] at h
    split at h
    case h_1 =>
      cases h
      exact .refl _
    case h_2 a ha =>
      obtain ⟨⟨b, s₁⟩, h₁, h⟩ := Turn.bind_eq_ok.mp h
      obtain ⟨hb, hp⟩ := runActor_ok h₁
      cases h
      have hu : s.actors.Evolves C (s.actors.update id b) := .update ha (.send hb)
      exact hp.actors ▸ hu

-- An actor that can be started joins the others.
theorem spawn_of_start {logic : S} {request : StartRequest C} {a : A} (autoForward : Bool)
    (ha : (ActorModel.start env logic request).outcome = .ok (.ok a))
    (hf : s.actors.find? request.actor = none) :
    ∃ posts, (s.spawn env logic request autoForward).outcome = .ok { s with
      actors := s.actors ++ [⟨request.actor, autoForward, a⟩]
      mailbox := s.mailbox ++ posts } := by
  refine ⟨(ActorModel.start (A := A) env logic request).posts.map fun p =>
    ⟨some request.actor, p.toEvent request.actor⟩, ?_⟩
  rw [spawn, Turn.outcome_bind, runActor, Turn.outcome_bind, Turn.outcome_collect, ha]
  change (insertActor env _ _).outcome = _
  simp only [insertActor, removeActor, receive, hf]
  rfl

omit [ActorModel C S A] in
theorem exists_eachActor {p : ArenaEntry A → Bool} {f : A → Turn C A}
    (hf : ∀ x ∈ s.actors, ∃ b, (f x.actor).outcome = .ok b) :
    ∃ s', (s.eachActor p f).outcome = .ok s' := by
  have hgo (rest seen : Arena A) (s : Shell C A)
      (hf : ∀ x ∈ rest, ∃ b, (f x.actor).outcome = .ok b) :
      ∃ s', (eachActor.go p f rest seen s).outcome = .ok s' := by
    induction rest generalizing seen s with
    | nil => exact ⟨_, rfl⟩
    | cons x rest ih =>
      obtain ⟨⟨b, hb⟩, hrest⟩ := List.forall_mem_cons.mp hf
      rw [eachActor.go]
      split
      case isTrue =>
        rw [Turn.outcome_bind, runActor, Turn.outcome_bind, Turn.outcome_collect, hb]
        exact ih _ _ hrest
      case isFalse => exact ih _ _ hrest
  exact hgo _ _ _ hf

-- Only what spawns or stops an actor starts or removes one.
theorem perform_evolves {r : Registry C S} {x : C} {a : Planned} {failure : Option ExecutionError}
    (ha : ∀ id, a.endsActor id = false) (h : (s.perform env r x e a).outcome = .ok (s', failure)) :
    s.actors.Evolves C s'.actors := by
  cases failure with
  | some err => exact .of_eq (perform_failed h).actors
  | none =>
    cases a with
    | effect name =>
      simp only [perform] at h
      split at h
      case h_1 run _ =>
        obtain ⟨_, _, h⟩ := Turn.bind_eq_ok.mp h
        obtain ⟨s₁, h₁, h⟩ := Turn.bind_eq_ok.mp h
        obtain rfl : s₁ = s' := congrArg Prod.fst (Except.ok.inj h)
        exact .of_eq (commands_ok h₁).actors
      case h_2 => cases h
    | send event target delay id owner =>
      cases delay with
      | none =>
        obtain ⟨s₁, h₁, h⟩ := Turn.bind_eq_ok.mp h
        cases h
        exact deliver_evolves h₁
      | some delay =>
        simp only [perform] at h
        split at h
        case h_1 => cases h
        case h_2 =>
          cases h
          exact .refl _
    | cancel id =>
      cases h
      exact .refl _
    | cancelOwned owner =>
      cases h
      exact .refl _
    | log label =>
      cases h
      exact .refl _
    | spawn service id owner autoForward => simpa [Planned.endsActor] using ha id
    | stop id => simpa [Planned.endsActor] using ha id

-- Every actor is stopped, all of them are still there, and no delayed event is left.
structure Rests (s s' : Shell C A) : Prop where
  status : s'.status = .stopped
  queue : s'.scheduler.queue = []
  ids : s'.actors.ids = s.actors.ids
  stopped {y : ArenaEntry A} : y ∈ s'.actors → ∃ x ∈ s.actors, ∃ env,
    (ActorModel.stop (C := C) env x.actor).outcome = .ok y.actor
  mailbox : ∃ vs, s'.mailbox = s.mailbox ++ vs

theorem halt_rests (h : (s.halt env).outcome = .ok s') : s.Rests s' := by
  obtain ⟨s₁, h₁, h⟩ := Turn.bind_eq_ok.mp h
  obtain ⟨hp, hi⟩ := eachActor_ok h₁
  obtain ⟨vs, hr⟩ := hp.receives
  cases h
  refine ⟨hr.status, by simp [Scheduler.cancelAll, Scheduler.cancelWhere], hi, fun {y} hy => ?_,
    vs, hr.mailbox⟩
  obtain ⟨x, hx, _, ⟨hp, _⟩ | hxy⟩ := eachActor_origin h₁ y hy
  · cases hp
  · exact ⟨x, hx, env, hxy⟩

theorem Noted.rests (h : s.Noted s') (hr : s'.Rests s'') : s.Rests s'' where
  status := hr.status
  queue := hr.queue
  ids := hr.ids.trans (congrArg Arena.ids h.actors)
  stopped hy := h.actors ▸ hr.stopped hy
  mailbox := exists_append_trans h.mailbox hr.mailbox

theorem Posted.rests (h : s.Posted s') (hr : s'.Rests s'') : s.Rests s'' := by
  obtain ⟨posts, rfl⟩ := h
  exact ⟨hr.status, hr.queue, hr.ids, hr.stopped, exists_append_trans ⟨posts, rfl⟩ hr.mailbox⟩

theorem Rests.halts (h : s.Rests s') : ∃ vs, s.Halts vs s' :=
  have ⟨_, hm⟩ := h.mailbox
  ⟨_, h.status, h.queue, hm⟩

end Shell

end Statechart
