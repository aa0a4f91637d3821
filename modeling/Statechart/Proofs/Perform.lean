import Statechart.Interpreter.Run
import Statechart.Proofs.Effects
import Statechart.Proofs.Macrostep

-- What carrying out a plan does to an interpreter, also when an action of the plan fails.

namespace Statechart

namespace Shell

variable {C S A : Type} [ActorModel C S A] {env : Env} {s s' s'' : Shell C A} {r : Registry C S}
  {x : C} {e : Event} {a : Planned} {actions : List Planned} {err : ExecutionError} {id : String}

-- Events were added to the mailbox, and nothing else happened.
def Posted (s s' : Shell C A) : Prop := ∃ posts, s' = { s with mailbox := s.mailbox ++ posts }

namespace Posted

omit [ActorModel C S A]

theorem refl (s : Shell C A) : s.Posted s := ⟨[], by simp⟩

theorem trans (h : s.Posted s') (h' : s'.Posted s'') : s.Posted s'' := by
  obtain ⟨posts, rfl⟩ := h
  obtain ⟨posts', rfl⟩ := h'
  exact ⟨posts ++ posts', by simp⟩

theorem receive (s : Shell C A) (id : String) (posts : List Post) : s.Posted (s.receive id posts) :=
  ⟨_, rfl⟩

theorem queue (s : Shell C A) (e : Event) : s.Posted (s.queue e) := ⟨_, rfl⟩

theorem actors (h : s.Posted s') : s'.actors = s.actors := by
  obtain ⟨_, rfl⟩ := h
  rfl

theorem scheduler (h : s.Posted s') : s'.scheduler = s.scheduler := by
  obtain ⟨_, rfl⟩ := h
  rfl

theorem mailbox (h : s.Posted s') : ∃ vs, s'.mailbox = s.mailbox ++ vs := by
  obtain ⟨vs, rfl⟩ := h
  exact ⟨vs, rfl⟩

theorem withActors (h : s.Posted s') (arena : Arena A) :
    Posted { s with actors := arena } { s' with actors := arena } := by
  obtain ⟨posts, rfl⟩ := h
  exact ⟨posts, rfl⟩

end Posted

theorem runActor_ok {α : Type} {y : Turn C α} {b : α}
    (h : (s.runActor id y).outcome = .ok (b, s')) : y.outcome = .ok b ∧ s.Posted s' := by
  have ⟨⟨b', posts⟩, hy, h⟩ := Turn.bind_eq_ok.mp h
  rw [Turn.outcome_collect] at hy
  cases hb : y.outcome with
  | error => simp [hb, Except.map] at hy
  | ok b'' =>
    simp only [hb, Except.map, Except.ok.injEq, Prod.mk.injEq] at hy
    simp only [Turn.outcome_pure, Except.ok.injEq, Prod.mk.injEq] at h
    obtain ⟨rfl, rfl⟩ := hy
    obtain ⟨rfl, rfl⟩ := h
    exact ⟨rfl, .receive ..⟩

theorem command_ok {c : Command} (h : (s.command c).outcome = .ok s') : s.Posted s' := by
  cases c with
  | send e =>
    cases h
    exact .queue s e
  | sendParent e =>
    have hs : (s.command (.sendParent e)).outcome = .ok s := by
      simp only [command]
      split <;> rfl
    cases hs.symm.trans h
    exact .refl s
  | resolve _ =>
    cases h
    exact .refl s

theorem commands_ok {cs : List Command} (h : (cs.foldlM command s).outcome = .ok s') :
    s.Posted s' := by
  induction cs generalizing s with
  | nil =>
    cases h
    exact .refl _
  | cons c rest ih =>
    rw [List.foldlM_cons] at h
    have ⟨s₁, h₁, h⟩ := Turn.bind_eq_ok.mp h
    exact (command_ok h₁).trans (ih h)

theorem removeActor_ok (h : (s.removeActor env id).outcome = .ok s') :
    Posted { s with actors := s.actors.erase id } s' := by
  simp only [removeActor] at h
  split at h
  case h_1 hf =>
    cases h
    rw [Arena.erase_of_find?_none hf]
    exact .refl _
  case h_2 =>
    have ⟨⟨_, s₁⟩, h₁, h⟩ := Turn.bind_eq_ok.mp h
    cases h
    exact (runActor_ok h₁).right

theorem insertActor_ok {entry : ArenaEntry A} (h : (s.insertActor env entry).outcome = .ok s') :
    Posted { s with actors := s.actors.erase entry.id ++ [entry] } s' := by
  have ⟨s₁, h₁, h⟩ := Turn.bind_eq_ok.mp h
  have h₁ := removeActor_ok h₁
  cases h
  exact h₁.actors ▸ h₁.withActors _

theorem spawn_ok {logic : S} {request : StartRequest C} {autoForward : Bool}
    (h : (s.spawn env logic request autoForward).outcome = .ok s') :
    ∃ entry, entry.id = request.actor ∧
      Posted { s with actors := s.actors.erase request.actor ++ [entry] } s' := by
  simp only [spawn] at h
  have ⟨⟨started, s₁⟩, h₁, h⟩ := Turn.bind_eq_ok.mp h
  have hp := (runActor_ok h₁).right
  cases started with
  | ok a =>
    have h := insertActor_ok h
    exact ⟨_, rfl, (hp.withActors _).trans (hp.actors ▸ h)⟩
  | error err =>
    have ⟨_, _, h⟩ := Turn.bind_eq_ok.mp h
    have ⟨s₂, h₂, h⟩ := Turn.bind_eq_ok.mp h
    have h₂ := insertActor_ok h₂
    cases h
    exact ⟨_, rfl, ((hp.withActors _).trans (hp.actors ▸ h₂)).trans (.receive ..)⟩

-- What an action that is carried out changes: the mailbox grows, delayed events and actors change
-- as the action says, and any other actor has at most been sent something.
structure Carried (env : Env) (a : Planned) (s s' : Shell C A) : Prop where
  in_time : a.overflows env.now = false
  frame : Posted { s with
    actors := s'.actors
    scheduler := s.scheduler.after env.now a } s'
  ids : s'.actors.ids = a.onIds s.actors.ids
  kept {id : String} {x : A} : a.endsActor id = false → s.actors.find? id = some x →
    ∃ y, s'.actors.find? id = some y ∧
      (y = x ∨ ∃ e, (ActorModel.send (C := C) env e x).outcome = .ok y)

theorem deliver_ok {target : Target} (h : (s.deliver env target e).outcome = .ok s') :
    Posted { s with actors := s'.actors } s' ∧ s'.actors.ids = s.actors.ids ∧
      ∀ id x, s.actors.find? id = some x → ∃ y, s'.actors.find? id = some y ∧
        (y = x ∨ ∃ e, (ActorModel.send (C := C) env e x).outcome = .ok y) := by
  cases target with
  | self =>
    cases h
    exact ⟨.queue s e, rfl, fun id x hx => ⟨x, hx, .inl rfl⟩⟩
  | parent =>
    have hs : (s.deliver env .parent e).outcome = .ok s := by
      simp only [deliver]
      split <;> rfl
    cases hs.symm.trans h
    exact ⟨.refl s, rfl, fun id x hx => ⟨x, hx, .inl rfl⟩⟩
  | actor id =>
    simp only [deliver] at h
    split at h
    case h_1 =>
      cases h
      exact ⟨.refl s, rfl, fun id x hx => ⟨x, hx, .inl rfl⟩⟩
    case h_2 x hx =>
      have ⟨⟨y, s₁⟩, h₁, h⟩ := Turn.bind_eq_ok.mp h
      have ⟨hy, hp⟩ := runActor_ok h₁
      cases h
      refine ⟨hp.withActors _, hp.actors ▸ Arena.ids_update, fun id' z hz => ?_⟩
      simp only [hp.actors, Arena.find?_update]
      split
      case isTrue hid =>
        obtain rfl := Option.some.inj (hx.symm.trans (hid ▸ hz))
        exact ⟨y, by simp [hz], .inr ⟨e, hy⟩⟩
      case isFalse => exact ⟨z, hz, .inl rfl⟩

-- Delayed events and actors stay as they are.
theorem Carried.of_posted (ha : a.overflows env.now = false) (hp : s.Posted s')
    (hs : s.scheduler.after env.now a = s.scheduler)
    (hi : a.onIds s.actors.ids = s.actors.ids) : Carried env a s s' where
  in_time := ha
  frame := by
    rw [hs, hp.actors]
    exact hp
  ids := by rw [hi, hp.actors]
  kept _ hx := ⟨_, hp.actors ▸ hx, .inl rfl⟩

-- Only delayed events change.
theorem Carried.of_scheduler (ha : a.overflows env.now = false)
    (hi : a.onIds s.actors.ids = s.actors.ids) :
    Carried env a s { s with scheduler := s.scheduler.after env.now a } where
  in_time := ha
  frame := .refl _
  ids := hi.symm
  kept _ hx := ⟨_, hx, .inl rfl⟩

theorem perform_ok (h : (s.perform env r x e a).outcome = .ok (s', none)) : Carried env a s s' := by
  cases a with
  | effect name =>
    simp only [perform] at h
    split at h
    case h_1 run _ =>
      obtain ⟨_, _, h⟩ := Turn.bind_eq_ok.mp h
      obtain ⟨s₁, h₁, h⟩ := Turn.bind_eq_ok.mp h
      obtain rfl : s₁ = s' := congrArg Prod.fst (Except.ok.inj h)
      exact .of_posted rfl (commands_ok h₁) rfl rfl
    case h_2 => cases h
  | send event target delay id owner =>
    cases delay with
    | none =>
      obtain ⟨s₁, h₁, h⟩ := Turn.bind_eq_ok.mp h
      cases h
      obtain ⟨hp, hi, hk⟩ := deliver_ok h₁
      exact ⟨rfl, hp, hi, fun _ hx => hk _ _ hx⟩
    | some delay =>
      simp only [perform] at h
      split at h
      case h_1 => cases h
      case h_2 deadline hd =>
        cases h
        have hs : s.scheduler.after env.now (.send event target (some delay) id owner) =
            s.scheduler.schedule { event, target, owner, id, deadline } := by
          simp [Scheduler.after, Planned.scheduled?, hd]
        exact hs ▸ .of_scheduler (by simp [Planned.overflows, hd]) rfl
  | cancel id =>
    cases h
    exact .of_scheduler rfl rfl
  | cancelOwned owner =>
    cases h
    exact .of_scheduler rfl rfl
  | log label =>
    cases h
    exact .of_posted rfl (.refl s) rfl rfl
  | spawn service id owner autoForward =>
    simp only [perform] at h
    split at h
    case h_1 => cases h
    case h_2 logic _ =>
      obtain ⟨s₁, h₁, h⟩ := Turn.bind_eq_ok.mp h
      cases h
      obtain ⟨entry, hid, hp⟩ := spawn_ok h₁
      refine ⟨rfl, hp.actors ▸ hp, ?_, fun {id' y} he hy => ⟨y, ?_, .inl rfl⟩⟩
      · rw [hp.actors, Arena.ids, List.map_append, ← Arena.ids, Arena.ids_erase]
        simp [Planned.onIds, hid]
      · have hne : id ≠ id' := by simpa [Planned.endsActor] using he
        rw [hp.actors, Arena.find?_append, Arena.find?_erase_of_ne hne, hy]
        rfl
  | stop id =>
    obtain ⟨s₁, h₁, h⟩ := Turn.bind_eq_ok.mp h
    cases h
    have hp := removeActor_ok h₁
    refine ⟨rfl, hp.actors ▸ hp, ?_, fun {id' y} he hy => ⟨y, ?_, .inl rfl⟩⟩
    · rw [hp.actors, Arena.ids_erase]
      rfl
    · have hne : id ≠ id' := by simpa [Planned.endsActor] using he
      rw [hp.actors, Arena.find?_erase_of_ne hne, hy]

-- An action that fails has at most sent events before.
theorem perform_failed (h : (s.perform env r x e a).outcome = .ok (s', some err)) :
    s.Posted s' := by
  cases a with
  | effect name =>
    simp only [perform] at h
    split at h
    case h_1 run _ =>
      obtain ⟨_, _, h⟩ := Turn.bind_eq_ok.mp h
      obtain ⟨s₁, h₁, h⟩ := Turn.bind_eq_ok.mp h
      obtain rfl : s₁ = s' := congrArg Prod.fst (Except.ok.inj h)
      exact commands_ok h₁
    case h_2 =>
      cases h
      exact .refl s
  | send event target delay id owner =>
    cases delay with
    | none =>
      obtain ⟨_, _, h⟩ := Turn.bind_eq_ok.mp h
      cases h
    | some delay =>
      simp only [perform] at h
      split at h
      case h_1 =>
        cases h
        exact .refl s
      case h_2 => cases h
  | spawn service id owner autoForward =>
    simp only [perform] at h
    split at h
    case h_1 =>
      cases h
      exact .refl s
    case h_2 =>
      obtain ⟨_, _, h⟩ := Turn.bind_eq_ok.mp h
      cases h
  | stop id =>
    obtain ⟨_, _, h⟩ := Turn.bind_eq_ok.mp h
    cases h
  | cancel id => cases h
  | cancelOwned owner => cases h
  | log label => cases h

-- What the actions that are carried out one after the other change.
inductive CarriedAll (env : Env) : List Planned → Shell C A → Shell C A → Prop
  | nil {s : Shell C A} : CarriedAll env [] s s
  | cons {a : Planned} {actions : List Planned} {s s' s'' : Shell C A} : Carried env a s s' →
      CarriedAll env actions s' s'' → CarriedAll env (a :: actions) s s''

theorem performAll_ok (h : (s.performAll env r x e actions).outcome = .ok (s', none)) :
    CarriedAll env actions s s' := by
  induction actions generalizing s with
  | nil =>
    cases h
    exact .nil
  | cons a rest ih =>
    have ⟨⟨s₁, failure⟩, h₁, h⟩ := Turn.bind_eq_ok.mp h
    cases failure with
    | some err => cases h
    | none => exact .cons (perform_ok h₁) (ih h)

-- All actions before the one that fails are carried out, and none after it.
theorem performAll_failed (h : (s.performAll env r x e actions).outcome = .ok (s', some err)) :
    ∃ done a rest s₁, actions = done ++ a :: rest ∧ CarriedAll env done s s₁ ∧
      (s₁.perform env r x e a).outcome = .ok (s', some err) ∧ s₁.Posted s' := by
  induction actions generalizing s with
  | nil => cases h
  | cons a rest ih =>
    have ⟨⟨s₁, failure⟩, h₁, h⟩ := Turn.bind_eq_ok.mp h
    cases failure with
    | some err' =>
      cases h
      exact ⟨[], a, rest, s, rfl, .nil, h₁, perform_failed h₁⟩
    | none =>
      have ⟨done, b, rest', s₂, hl, hd, hb, hp⟩ := ih h
      exact ⟨a :: done, b, rest', s₂, by simp [hl], .cons (perform_ok h₁) hd, hb, hp⟩

-- Whether an action fails or not, those before it are carried out.
theorem performAll_done {failure : Option ExecutionError}
    (h : (s.performAll env r x e actions).outcome = .ok (s', failure)) :
    ∃ done s₁, done <+: actions ∧ CarriedAll env done s s₁ ∧ s₁.Posted s' := by
  cases failure with
  | none => exact ⟨actions, s', List.prefix_refl _, performAll_ok h, .refl _⟩
  | some err =>
    have ⟨done, a, rest, s₁, hl, hd, _, hp⟩ := performAll_failed h
    exact ⟨done, s₁, ⟨a :: rest, hl.symm⟩, hd, hp⟩

namespace CarriedAll

theorem in_time (h : CarriedAll env actions s s') : ∀ a ∈ actions, a.overflows env.now = false := by
  induction h with
  | nil => simp
  | cons h _ ih => exact List.forall_mem_cons.mpr ⟨h.in_time, ih⟩

theorem scheduler (h : CarriedAll env actions s s') :
    s'.scheduler = actions.foldl (Scheduler.after env.now) s.scheduler := by
  induction h with
  | nil => rfl
  | cons h _ ih => rw [ih, h.frame.scheduler, List.foldl_cons]

theorem ids (h : CarriedAll env actions s s') :
    s'.actors.ids = actions.foldl Planned.onIds s.actors.ids := by
  induction h with
  | nil => rfl
  | cons h _ ih => rw [ih, h.ids, List.foldl_cons]

-- An actor that no action ends has at most been sent something.
theorem kept {y : A} (h : CarriedAll env actions s s') (hid : ∀ a ∈ actions, a.endsActor id = false)
    (hf : s.actors.find? id = some y) : ∃ z, s'.actors.find? id = some z ∧
      Relation.ReflTransGen
        (fun y z => ∃ e, (ActorModel.send (C := C) env e y).outcome = .ok z) y z := by
  induction h generalizing y with
  | nil => exact ⟨y, hf, .refl⟩
  | cons h _ ih =>
    have ⟨z, hz, hyz⟩ := h.kept (hid _ List.mem_cons_self) hf
    have ⟨w, hw, hzw⟩ := ih (fun a ha => hid a (List.mem_cons_of_mem _ ha)) hz
    refine ⟨w, hw, ?_⟩
    cases hyz
    case inl h => exact h ▸ hzw
    case inr h => exact .head h hzw

end CarriedAll

theorem exists_append_trans {α : Type} {l l' l'' : List α} (h : ∃ xs, l' = l ++ xs)
    (h' : ∃ ys, l'' = l' ++ ys) : ∃ zs, l'' = l ++ zs := by
  obtain ⟨xs, rfl⟩ := h
  obtain ⟨ys, rfl⟩ := h'
  exact ⟨xs ++ ys, List.append_assoc ..⟩

-- Nobody hears of what an interpreter does before it comes to its end.
structure Unheard (s : Shell C A) : Prop where
  listeners : s.listeners = []
  errorListeners : s.errorListeners = []

-- Errors are noted and listeners queue events, and nothing else happens.
structure Noted (s s' : Shell C A) : Prop where
  status : s'.status = s.status
  actors : s'.actors = s.actors
  scheduler : s'.scheduler = s.scheduler
  listeners : s'.listeners = s.listeners
  errorListeners : s'.errorListeners = s.errorListeners
  mailbox : ∃ posts, s'.mailbox = s.mailbox ++ posts
  mailbox_of_unheard : s.Unheard → s'.mailbox = s.mailbox

namespace Noted

omit [ActorModel C S A]

theorem refl (s : Shell C A) : s.Noted s :=
  ⟨rfl, rfl, rfl, rfl, rfl, ⟨[], by simp⟩, fun _ => rfl⟩

theorem unheard (h : s.Noted s') (hs : s.Unheard) : s'.Unheard :=
  ⟨h.listeners.trans hs.listeners, h.errorListeners.trans hs.errorListeners⟩

theorem trans (h : s.Noted s') (h' : s'.Noted s'') : s.Noted s'' where
  status := h'.status.trans h.status
  actors := h'.actors.trans h.actors
  scheduler := h'.scheduler.trans h.scheduler
  listeners := h'.listeners.trans h.listeners
  errorListeners := h'.errorListeners.trans h.errorListeners
  mailbox := exists_append_trans h.mailbox h'.mailbox
  mailbox_of_unheard hs := (h'.mailbox_of_unheard (h.unheard hs)).trans (h.mailbox_of_unheard hs)

end Noted

section Listeners

omit [ActorModel C S A]

theorem queueAll_mailbox (es : List Event) (s : Shell C A) : es.foldl queue s =
    { s with mailbox := s.mailbox ++ es.map (⟨none, ·⟩) } := by
  induction es generalizing s with
  | nil => simp
  | cons e rest ih => simp [ih, queue]

theorem callAll_outcome {α : Type} (listeners : List α) (entry : α → Entry C)
    (posts : α → List Event) (s : Shell C A) : (s.callAll listeners entry posts).outcome =
      .ok { s with mailbox := s.mailbox ++ (listeners.flatMap posts).map (⟨none, ·⟩) } := by
  induction listeners generalizing s with
  | nil => simp [callAll]
  | cons l rest ih =>
    refine (ih ((posts l).foldl queue s)).trans ?_
    simp [queueAll_mailbox]

theorem callAll_posted {α : Type} (listeners : List α) (entry : α → Entry C)
    (posts : α → List Event) (s : Shell C A) :
    ∃ s', (s.callAll listeners entry posts).outcome = .ok s' ∧ s.Posted s' :=
  ⟨_, callAll_outcome .., _, rfl⟩

theorem callAll_posts {α : Type} {listeners : List α} {entry : α → Entry C}
    {posts : α → List Event} : (s.callAll listeners entry posts).posts = [] := by
  induction listeners generalizing s with
  | nil => rfl
  | cons l rest ih =>
    have h : (callAll ((posts l).foldl queue s) rest entry posts).posts = [] := ih
    rw [callAll, List.foldlM_cons]
    exact h

-- What the error listeners post when they hear of the errors.
def complaints (s : Shell C A) (es : List ExecutionError) : List Event :=
  es.flatMap fun e => s.errorListeners.flatMap (· e)

theorem report_outcome (e : ExecutionError) (s : Shell C A) : (s.report e).outcome = .ok { s with
    lastError := some e
    mailbox := s.mailbox ++ (s.complaints [e]).map (⟨none, ·⟩) } := by
  rw [complaints, List.flatMap_singleton]
  exact callAll_outcome s.errorListeners (fun _ => .reported e) (· e) { s with lastError := some e }

theorem reportAll_singleton (e : ExecutionError) (s : Shell C A) :
    s.reportAll [e] = s.report e := by
  simp [reportAll]

theorem reportAll_outcome (es : List ExecutionError) (s : Shell C A) :
    (s.reportAll es).outcome = .ok { s with
      lastError := es.getLast?.or s.lastError
      mailbox := s.mailbox ++ (s.complaints es).map (⟨none, ·⟩) } := by
  induction es generalizing s with
  | nil => simp [reportAll, complaints]
  | cons e rest ih =>
    rw [reportAll, List.foldlM_cons, Turn.outcome_bind, report_outcome]
    refine (ih _).trans ?_
    rw [List.getLast?_cons]
    cases rest.getLast? <;> simp [complaints]

theorem reportAll_ok (es : List ExecutionError) (s : Shell C A) :
    ∃ s', (s.reportAll es).outcome = .ok s' ∧ s.Noted s' ∧
      s'.lastError = es.getLast?.or s.lastError :=
  ⟨_, reportAll_outcome es s, ⟨rfl, rfl, rfl, rfl, rfl, ⟨_, rfl⟩,
    fun hs => by simp [complaints, hs.errorListeners]⟩, rfl⟩

end Listeners

-- Events are added to the mailbox, and nothing is scheduled but what `actions` ask for.
structure Obeys (env : Env) (actions : List Planned) (s s' : Shell C A) : Prop where
  status : s'.status = s.status
  mailbox : ∃ posts, s'.mailbox = s.mailbox ++ posts
  queue p : p ∈ s'.scheduler.queue → p ∈ s.scheduler.queue ∨
    ∃ a ∈ actions, a.scheduled? env.now = some p.toScheduled

namespace Obeys

variable {actions' : List Planned}

omit [ActorModel C S A]

theorem mono (h : Obeys env actions s s') (hs : actions ⊆ actions') : Obeys env actions' s s' where
  status := h.status
  mailbox := h.mailbox
  queue p hp := (h.queue p hp).imp_right fun ⟨a, ha, he⟩ => ⟨a, hs ha, he⟩

theorem trans (h : Obeys env actions s s') (h' : Obeys env actions s' s'') :
    Obeys env actions s s'' where
  status := h'.status.trans h.status
  mailbox := exists_append_trans h.mailbox h'.mailbox
  queue p hp := (h'.queue p hp).elim (h.queue p) .inr

end Obeys

omit [ActorModel C S A] in
theorem Noted.obeys (h : s.Noted s') : Obeys env actions s s' :=
  ⟨h.status, h.mailbox, fun _ hp => .inl (h.scheduler ▸ hp)⟩

omit [ActorModel C S A] in
theorem Posted.obeys (h : s.Posted s') : Obeys env actions s s' := by
  obtain ⟨posts, rfl⟩ := h
  exact ⟨rfl, ⟨posts, rfl⟩, fun _ hp => .inl hp⟩

theorem Carried.obeys (h : Carried env a s s') : Obeys env [a] s s' := by
  have hf : Obeys env [a] _ s' := h.frame.obeys
  refine ⟨hf.status, hf.mailbox, fun p hp => ?_⟩
  rw [h.frame.scheduler] at hp
  refine (Scheduler.mem_after.mp hp).imp And.left fun ⟨e, he, hp⟩ => ⟨a, by simp, ?_⟩
  rw [he, hp]

theorem CarriedAll.obeys (h : CarriedAll env actions s s') : Obeys env actions s s' := by
  induction h with
  | nil => exact (Posted.refl _).obeys
  | cons h _ ih => exact (h.obeys.mono (by simp)).trans (ih.mono (by simp))

-- Failures do not change that.
theorem performAll_obeys {failure : Option ExecutionError}
    (h : (s.performAll env r x e actions).outcome = .ok (s', failure)) :
    Obeys env actions s s' :=
  have ⟨_, _, hd, hc, hp⟩ := performAll_done h
  (hc.obeys.mono hd.subset).trans hp.obeys

theorem performEach_obeys (h : (s.performEach env r x e actions).outcome = .ok s') :
    Obeys env actions s s' := by
  induction actions generalizing s with
  | nil =>
    cases h
    exact (Posted.refl _).obeys
  | cons a rest ih =>
    have ⟨s₂, h₂, h⟩ := Turn.bind_eq_ok.mp h
    have ⟨⟨s₁, failure⟩, h₁, h₂⟩ := Turn.bind_eq_ok.mp h₂
    have ⟨s₃, h₃, hn, _⟩ := reportAll_ok failure.toList s₁
    obtain rfl := Except.ok.inj (h₃.symm.trans h₂)
    have hs : Obeys env [a] s s₁ := by
      cases failure with
      | none => exact (perform_ok h₁).obeys
      | some err => exact (perform_failed h₁).obeys
    exact ((hs.trans hn.obeys).mono (by simp)).trans ((ih h).mono (by simp))

omit [ActorModel C S A] in
theorem eachActor_ok {p : ArenaEntry A → Bool} {f : A → Turn C A}
    (h : (s.eachActor p f).outcome = .ok s') :
    Posted { s with actors := s'.actors } s' ∧ s'.actors.ids = s.actors.ids := by
  have hgo (rest seen : Arena A) (s : Shell C A)
      (h : (eachActor.go p f rest seen s).outcome = .ok s') :
      Posted { s with actors := s'.actors } s' ∧ s'.actors.ids = seen.ids ++ rest.ids := by
    induction rest generalizing seen s with
    | nil =>
      cases h
      exact ⟨.refl _, (List.append_nil _).symm⟩
    | cons e rest ih =>
      rw [eachActor.go] at h
      split at h
      case isTrue =>
        obtain ⟨⟨_, s₁⟩, h₁, h⟩ := Turn.bind_eq_ok.mp h
        obtain ⟨hp, hi⟩ := ih _ _ h
        exact ⟨((runActor_ok h₁).right.withActors _).trans hp, hi.trans (by simp [Arena.ids])⟩
      case isFalse =>
        obtain ⟨hp, hi⟩ := ih _ _ h
        exact ⟨hp, hi.trans (by simp [Arena.ids])⟩
  exact hgo _ _ _ h

-- What was to be seen of an action when it was carried out: what it writes down, what it sends to
-- the machine itself, which waits in the mailbox, and what it sends to the parent.
structure Tells {α : Type} (r : Registry C S) (x : C) (e : Event) (a : Planned) (s s' : Shell C A)
    (y : Turn C α) : Prop where
  entries : a.entries x e s.id <+: y.entries
  mailbox : s.mailbox ++ ((a.commands r x e).filterMap Command.own?).map (⟨none, ·⟩) <+: s'.mailbox
  posts : y.posts =
    if s.hasParent then ((a.commands r x e).filterMap Command.toParent?).map .send else []

omit [ActorModel C S A] in
theorem commands_tell {cs : List Command} (h : (cs.foldlM command s).outcome = .ok s') :
    s'.mailbox = s.mailbox ++ (cs.filterMap Command.own?).map (⟨none, ·⟩) ∧
      (cs.foldlM command s).posts =
        if s.hasParent then (cs.filterMap Command.toParent?).map .send else [] := by
  induction cs generalizing s with
  | nil =>
    cases h
    exact ⟨by simp, (ite_self []).symm⟩
  | cons c rest ih =>
    rw [List.foldlM_cons] at h ⊢
    obtain ⟨s₁, h₁, h⟩ := Turn.bind_eq_ok.mp h
    obtain ⟨hm, hp⟩ := ih h
    rw [Turn.posts_bind h₁, hm, hp]
    cases c with
    | send e =>
      cases h₁
      exact ⟨by simp [Command.own?, queue], rfl⟩
    | sendParent e =>
      have hs : (s.command (.sendParent e)).outcome = .ok s ∧ (s.command (.sendParent e)).posts =
          if s.hasParent then [.send e] else [] := by
        rw [command]
        split
        · exact ⟨rfl, rfl⟩
        · exact ⟨rfl, rfl⟩
      obtain rfl := Except.ok.inj (hs.left.symm.trans h₁)
      refine ⟨rfl, ?_⟩
      rw [hs.right]
      split <;> rfl
    | resolve data =>
      cases h₁
      exact ⟨rfl, rfl⟩

omit [ActorModel C S A] in
theorem runActor_posts {α : Type} {y : Turn C α} : (s.runActor id y).posts = [] :=
  Turn.posts_bind_eq_nil rfl fun _ _ => rfl

theorem removeActor_posts : (s.removeActor env id).posts = [] := by
  rw [removeActor]
  split
  · rfl
  · exact Turn.posts_bind_eq_nil runActor_posts fun _ _ => rfl

theorem insertActor_posts {entry : ArenaEntry A} : (s.insertActor env entry).posts = [] :=
  Turn.posts_bind_eq_nil removeActor_posts fun _ _ => rfl

theorem spawn_posts {logic : S} {request : StartRequest C} {autoForward : Bool} :
    (s.spawn env logic request autoForward).posts = [] := by
  refine Turn.posts_bind_eq_nil runActor_posts fun ⟨started, s₁⟩ _ => ?_
  cases started with
  | ok a => exact insertActor_posts
  | error err =>
    exact Turn.posts_bind_eq_nil rfl fun _ _ =>
      Turn.posts_bind_eq_nil insertActor_posts fun _ _ => rfl

omit [ActorModel C S A] in
theorem Tells.of_silent {α : Type} {y : Turn C α} (ha : a.entries x e s.id = [])
    (hc : a.commands r x e = []) (hm : ∃ vs, s'.mailbox = s.mailbox ++ vs) (hp : y.posts = []) :
    Tells r x e a s s' y := by
  obtain ⟨vs, hm⟩ := hm
  exact ⟨by simp [ha], ⟨vs, by simp [hc, hm]⟩, by simp [hc, hp]⟩

theorem deliver_tells {target : Target} {sent : Event} {timer : Option String}
    {owner : NodeIndex} (h : (s.deliver env target sent).outcome = .ok s') :
    Tells r x e (.send sent target none timer owner) s s' (s.deliver env target sent) := by
  cases target with
  | self =>
    cases h
    exact ⟨List.nil_prefix, List.prefix_refl _, (ite_self []).symm⟩
  | parent =>
    obtain ⟨hs, hp⟩ : (s.deliver env .parent sent).outcome = .ok s ∧
        (s.deliver env .parent sent).posts = if s.hasParent then [.send sent] else [] := by
      rw [deliver]
      split
      · exact ⟨rfl, rfl⟩
      · exact ⟨rfl, rfl⟩
    obtain rfl := Except.ok.inj (hs.symm.trans h)
    exact ⟨List.nil_prefix, ⟨[], by simp [Planned.commands, Command.own?]⟩, hp⟩
  | actor id =>
    have hp : Posted _ s' := (deliver_ok h).left
    refine .of_silent rfl rfl hp.mailbox ?_
    rw [deliver]
    split
    · rfl
    · exact Turn.posts_bind_eq_nil runActor_posts fun _ _ => rfl

theorem perform_tells (h : (s.perform env r x e a).outcome = .ok (s', none)) :
    Tells r x e a s s' (s.perform env r x e a) := by
  have hmail := (perform_ok h).obeys.mailbox
  cases a with
  | effect name =>
    simp only [perform] at h ⊢
    split at h
    case h_1 run hr =>
      obtain ⟨_, h₀, h⟩ := Turn.bind_eq_ok.mp h
      obtain ⟨s₁, h₁, h⟩ := Turn.bind_eq_ok.mp h
      obtain rfl : s₁ = s' := congrArg Prod.fst (Except.ok.inj h)
      obtain ⟨hm, hp⟩ := commands_tell h₁
      refine ⟨?_, ?_, ?_⟩
      · rw [Turn.entries_bind h₀]
        exact List.prefix_append _ _
      · simp [Planned.commands, hr, hm]
      · rw [Turn.posts_bind h₀, Turn.posts_bind h₁, hp]
        simp only [Planned.commands, hr]
        exact List.append_nil _
    case h_2 => cases h
  | send event target delay timer owner =>
    cases delay with
    | some delay =>
      simp only [perform] at h ⊢
      split at h
      case h_1 => cases h
      case h_2 =>
        have hc : (Planned.send event target (some delay) timer owner).commands r x e = [] := by
          cases target <;> rfl
        exact .of_silent rfl hc hmail rfl
    | none =>
      obtain ⟨s₁, h₁, h⟩ := Turn.bind_eq_ok.mp h
      cases h
      have ht : Tells r x e (.send event target none timer owner) s s' _ := deliver_tells h₁
      refine ⟨ht.entries.trans ?_, ht.mailbox, ?_⟩
      · change _ <+: Turn.entries (_ >>= _)
        rw [Turn.entries_bind h₁]
        exact List.prefix_append _ _
      · change Turn.posts (_ >>= _) = _
        rw [Turn.posts_bind h₁, ht.posts]
        exact List.append_nil _
  | cancel | cancelOwned => exact .of_silent rfl rfl hmail rfl
  | log label =>
    cases h
    exact ⟨List.prefix_refl _, ⟨[], by simp [Planned.commands]⟩, (ite_self []).symm⟩
  | spawn service id owner autoForward =>
    refine .of_silent rfl rfl hmail ?_
    simp only [perform] at h ⊢
    split
    case h_1 => rfl
    case h_2 => exact Turn.posts_bind_eq_nil spawn_posts fun _ _ => rfl
  | stop id =>
    exact .of_silent rfl rfl hmail (Turn.posts_bind_eq_nil removeActor_posts fun _ _ => rfl)

end Shell

end Statechart
