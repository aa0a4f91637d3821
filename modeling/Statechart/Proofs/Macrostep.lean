import Mathlib.Logic.Relation
import Statechart.Macrostep

-- A macrostep as a sequence of rounds, and where it breaks off.

namespace Statechart

namespace Turn

variable {C α β : Type} {x : Turn C α} {f : α → Turn C β} {a : α} {b : β} {k : Crash}

@[simp] theorem outcome_pure : (pure a : Turn C α).outcome = .ok a := rfl

@[simp] theorem outcome_noteAll {es : List (Entry C)} : (noteAll es).outcome = .ok () := rfl

@[simp] theorem outcome_note {e : Entry C} : (note e).outcome = .ok () := rfl

@[simp] theorem outcome_warn {w : Warning} : (warn w : Turn C Unit).outcome = .ok () := rfl

@[simp] theorem outcome_post {p : Post} : (post p : Turn C Unit).outcome = .ok () := rfl

@[simp] theorem outcome_collect : x.collect.outcome = x.outcome.map fun a => (a, x.posts) := rfl

@[simp] theorem outcome_bind : (x >>= f).outcome = x.outcome.bind fun a => (f a).outcome := by
  change (Turn.bind x f).outcome = _
  simp only [Turn.bind]
  cases hx : x.outcome <;> rfl

theorem entries_bind (h : x.outcome = .ok a) :
    (x >>= f).entries = x.entries ++ (f a).entries := by
  change (Turn.bind x f).entries = _
  rw [Turn.bind, h]

theorem posts_bind (h : x.outcome = .ok a) : (x >>= f).posts = x.posts ++ (f a).posts := by
  change (Turn.bind x f).posts = _
  rw [Turn.bind, h]

theorem posts_bind_eq_nil (hx : x.posts = []) (hf : ∀ a, x.outcome = .ok a → (f a).posts = []) :
    (x >>= f).posts = [] := by
  cases hx' : x.outcome with
  | ok a => rw [posts_bind hx', hx, hf a hx', List.nil_append]
  | error =>
    change (Turn.bind x f).posts = []
    rw [Turn.bind, hx']
    exact hx

theorem bind_eq_ok : (x >>= f).outcome = .ok b ↔
    ∃ a, x.outcome = .ok a ∧ (f a).outcome = .ok b := by
  rw [outcome_bind]
  cases x.outcome <;> simp [Except.bind]

@[simp] theorem outcome_map {g : α → β} : (g <$> x).outcome = x.outcome.map g := by
  rw [← bind_pure_comp, outcome_bind]
  cases x.outcome <;> rfl

theorem map_eq_ok {g : α → β} : (g <$> x).outcome = .ok b ↔ ∃ a, x.outcome = .ok a ∧ g a = b := by
  rw [outcome_map]
  cases x.outcome <;> simp [Except.map]

end Turn

-- The event that is processed, if it is one.
def Trigger.events : Trigger → List Event
  | start => []
  | event e => [e]

namespace MachineState

-- Only the active nodes matter: there is no context, and nothing is recorded.
def plain (c : Configuration) : MachineState Unit where
  configuration := c
  context := ()
  history := ∅

theorem plain_after {c c' : Configuration} {m : Microstep Unit} (hc : m.configuration = c')
    (hh : m.history = ∅) (hd : m.done = false) : (plain c).after m = plain c' := by
  simp [after, plain, hc, hh, hd]

end MachineState

namespace Progress

variable {σ C : Type} {p : Progress σ C} {shell : σ} {m : Microstep C}
  {es : List ExecutionError}

@[simp] theorem accept_state : (p.accept shell m).state = p.state.after m := rfl

@[simp] theorem accept_current : (p.accept shell m).current = p.current := rfl

@[simp] theorem noteErrors_state : (p.noteErrors es).state = p.state := rfl

@[simp] theorem noteErrors_nil : p.noteErrors [] = p := by simp [noteErrors]

end Progress

namespace Macrostep

variable {C S σ : Type} (t : Tree) (r : Registry C S) (config : Config) (commit : Commit σ C)

-- What is enabled in `s`.
def selection (s : MachineState C) (e : Event) (eventless : Bool) : Evaluation (List Transition) :=
  select t r config.guardPolicy s.configuration s.context e eventless

-- `us` taken where `p` has got to.
def attempt (p : Progress σ C) (us : List Transition) : Except Fault (Microstep C) :=
  Microstep.take t r p.current p.state.configuration p.state.context p.state.history us

-- No transition is enabled that needs no event.
structure Settled (p : Progress σ C) : Prop where
  running : p.state.done = false
  below_limit : p.microsteps < config.maxMicrosteps
  none_enabled : (selection t r config p.state p.current true).result = .ok []

-- Takes the event `e` out of the queue, of which `rest` remains.
def dequeue (p : Progress σ C) (e : Event) (rest : List Event) : Progress σ C :=
  let q := p.noteErrors (selection t r config p.state p.current true).guardErrors
  { q with current := e, raised := rest }.noteErrors
    (selection t r config p.state e false).guardErrors

-- The next microstep after `p` takes `us` at `q`.
inductive Offers (p : Progress σ C) : Progress σ C → List Transition → Prop
  | always {us : List Transition} : p.state.done = false → p.microsteps < config.maxMicrosteps →
      (selection t r config p.state p.current true).result = .ok us → us ≠ [] →
      Offers p (p.noteErrors (selection t r config p.state p.current true).guardErrors) us
  | raised {e : Event} {rest : List Event} {us : List Transition} : Settled t r config p →
      p.raised = e :: rest → (selection t r config p.state e false).result = .ok us → us ≠ [] →
      Offers p (dequeue t r config p e rest) us

-- Taking `us` at `q` leads to `q'`.
inductive Takes (q : Progress σ C) (us : List Transition) : Progress σ C → Prop
  | intro {m shell} : attempt t r q us = .ok m →
      (commit q.shell m q.current).outcome = .ok (shell, none) → Takes q us (q.accept shell m)

-- Taking `us` at `q` breaks off.
inductive Breaks (q : Progress σ C) (us : List Transition) : Crash → Prop
  | illegal : attempt t r q us = .error .illegal → Breaks q us .illegalConfiguration
  | commit {m k} : attempt t r q us = .ok m → (commit q.shell m q.current).outcome = .error k →
      Breaks q us k

-- One round takes a microstep that is committed, or drops a raised event that enables nothing.
inductive Round (p : Progress σ C) : Progress σ C → Prop
  | microstep {q q' us} : Offers t r config p q us → Takes t r commit q us q' → Round p q'
  | skip {e rest} : Settled t r config p → p.raised = e :: rest →
      (selection t r config p.state e false).result = .ok [] →
      Round p (dequeue t r config p e rest)

-- The macrostep goes no further: the machine is done or at rest, the limit is reached, or a guard
-- fails.
inductive Stops (p : Progress σ C) : Progress σ C → Prop
  | done : p.state.done = true → Stops p p
  | limited : p.state.done = false → config.maxMicrosteps ≤ p.microsteps →
      Stops p (p.fail (.microstepLimit config.maxMicrosteps p.current.name))
  | failed {err : ExecutionError} : p.state.done = false → p.microsteps < config.maxMicrosteps →
      (selection t r config p.state p.current true).result = .error err →
      Stops p ((p.noteErrors []).fail err)
  | resting : Settled t r config p → p.raised = [] →
      Stops p (p.noteErrors (selection t r config p.state p.current true).guardErrors)
  | raised {e : Event} {rest : List Event} {err : ExecutionError} : Settled t r config p →
      p.raised = e :: rest → (selection t r config p.state e false).result = .error err →
      Stops p (({ p.noteErrors (selection t r config p.state p.current true).guardErrors with
        current := e, raised := rest }.noteErrors []).fail err)

-- How a macrostep that has got to `p` ends: it goes no further, or its next microstep is refused.
inductive Ends (p : Progress σ C) : Progress σ C → Prop
  | resting {p'} : p'.state = p.state → p'.shell = p.shell → Ends p p'
  | refused {q us m shell err} : Offers t r config p q us → attempt t r q us = .ok m →
      (commit q.shell m q.current).outcome = .ok (shell, some err) → Ends p (q.refuse shell m err)

-- Where a macrostep for the event `e` starts.
def opening (shell : σ) (s : MachineState C) (e : Event) : Progress σ C :=
  { shell := shell, state := s, current := e : Progress σ C }.noteErrors
    (selection t r config s e false).guardErrors

-- A macrostep from `s` has committed its first microstep.
inductive Started (shell : σ) (s : MachineState C) : Trigger → Progress σ C → Prop
  | start {m shell'} : Microstep.initial t r .init s.context s.history = .ok m →
      (commit shell m .init).outcome = .ok (shell', none) →
      Started shell s .start
        ({ shell := shell, state := s, current := .init : Progress σ C }.accept shell' m)
  | event {e us p} : (selection t r config s e false).result = .ok us → us ≠ [] →
      Takes t r commit (opening t r config shell s e) us p → Started shell s (.event e) p

-- How a macrostep from `s` ends: there was nothing to be done, which is an error at the start, its
-- first microstep was refused, or some microsteps were committed.
inductive Finishes (shell : σ) (s : MachineState C) : Trigger → Progress σ C → Prop
  | unmoved {trigger p} : p.state = s → p.shell = shell → (trigger = .start → p.error ≠ none) →
      Finishes shell s trigger p
  | unstarted {m shell' err} : Microstep.initial t r .init s.context s.history = .ok m →
      (commit shell m .init).outcome = .ok (shell', some err) →
      Finishes shell s .start
        ({ shell := shell, state := s, current := .init : Progress σ C }.refuse shell' m err)
  | refused {e us m shell' err} : (selection t r config s e false).result = .ok us → us ≠ [] →
      attempt t r (opening t r config shell s e) us = .ok m →
      (commit shell m e).outcome = .ok (shell', some err) →
      Finishes shell s (.event e) ((opening t r config shell s e).refuse shell' m err)
  | started {trigger p q p'} : Started t r config commit shell s trigger p →
      Relation.ReflTransGen (Round t r config commit) p q → Ends t r config commit q p' →
      Finishes shell s trigger p'

-- A macrostep from `s` comes to take `us` at `q`.
inductive Attempts (shell : σ) (s : MachineState C) :
    Trigger → Progress σ C → List Transition → Prop
  | first {e us} : (selection t r config s e false).result = .ok us → us ≠ [] →
      Attempts shell s (.event e) (opening t r config shell s e) us
  | later {trigger p p' q us} : Started t r config commit shell s trigger p →
      Relation.ReflTransGen (Round t r config commit) p p' → Offers t r config p' q us →
      Attempts shell s trigger q us

-- The first microstep for a trigger, before which no guard fails.
inductive Opens (s : MachineState C) : Trigger → Microstep C → Prop
  | start {m} : Microstep.initial t r .init s.context s.history = .ok m → Opens s .start m
  | event {e us m} : (selection t r config s e false).result = .ok us →
      (selection t r config s e false).guardErrors = [] → us ≠ [] →
      Microstep.take t r e s.configuration s.context s.history us = .ok m → Opens s (.event e) m

-- All that comes of a trigger is one microstep, after which the machine is at rest in `s'`.
structure Reacts (s : MachineState C) (trigger : Trigger) (m : Microstep C) (s' : MachineState C) :
    Prop where
  opens : Opens t r config s trigger m
  after : s.after m = s'
  raises_nothing : m.raised = []
  running : s'.done = false
  below_limit : 1 < config.maxMicrosteps
  none_enabled : (selection t r config s' trigger.toEvent true).result = .ok []
  none_failed : (selection t r config s' trigger.toEvent true).guardErrors = []

variable {t r config commit}
  {p q q' : Progress σ C} {us : List Transition} {e : Event} {s : MachineState C} {k : Crash}
  {eventless : Bool} {m : Microstep C} {err : ExecutionError} {rest : List Event} {shell : σ}
  {trigger : Trigger}

@[simp] theorem dequeue_state : (dequeue t r config p e rest).state = p.state := rfl

@[simp] theorem dequeue_current : (dequeue t r config p e rest).current = e := rfl

@[simp] theorem opening_state : (opening t r config shell s e).state = s := rfl

theorem choose_of_error (h : (selection t r config s e eventless).result = .error err) :
    (choose t r config s e eventless).outcome = .ok (.failed err, []) := by
  simp only [selection] at h
  simp [choose, observe, h, Except.map]

theorem choose_of_nil (h : (selection t r config s e eventless).result = .ok []) :
    (choose t r config s e eventless).outcome =
      .ok (.nothing, (selection t r config s e eventless).guardErrors) := by
  simp only [selection] at h ⊢
  simp [choose, observe, h, Except.map]

theorem choose_of_ne_nil (h : (selection t r config s e eventless).result = .ok us)
    (hus : us ≠ []) : (choose t r config s e eventless).outcome =
      (ofFault (Microstep.take t r e s.configuration s.context s.history us)).outcome.map
        fun c => (c, (selection t r config s e eventless).guardErrors) := by
  simp only [selection] at h ⊢
  cases us with
  | nil => contradiction
  | cons u us => simp [choose, observe, h, Except.bind]

theorem loop_of_running (hd : p.state.done = false) (hl : p.microsteps < config.maxMicrosteps) :
    loop t r config commit p = (do
      let (choice, errors) ← choose t r config p.state p.current true
      match choice, p.raised with
      | .nothing, [] => pure (p.noteErrors errors)
      | .nothing, e :: rest =>
        let (choice, errors') ← choose t r config p.state e false
        let q := { p.noteErrors errors with current := e, raised := rest }.noteErrors errors'
        match choice with
        | .nothing => loop t r config commit q
        | choice => begin t r config commit q choice
      | choice, _ => begin t r config commit (p.noteErrors errors) choice) := by
  rw [loop]
  simp only [hd, Bool.false_eq_true, if_false, Nat.not_le.mpr hl]
  refine bind_congr fun c => ?_
  obtain ⟨choice, errors⟩ := c
  cases choice with
  | nothing =>
    dsimp only
    split
    case h_1 h => rw [h]
    case h_2 h =>
      rw [h]
      refine bind_congr fun c => ?_
      obtain ⟨choice, errors⟩ := c
      cases choice <;> rfl
  | failed => rfl
  | step => rfl

-- A round that takes transitions goes on as the first microstep of a macrostep does.
theorem loop_of_offers (h : Offers t r config p q us) : (loop t r config commit p).outcome =
    (ofFault (attempt t r q us)).outcome.bind fun c => (begin t r config commit q c).outcome := by
  cases h with
  | always hd hl hs hus =>
    rw [loop_of_running hd hl, Turn.outcome_bind, choose_of_ne_nil hs hus]
    change _ = (ofFault (Microstep.take t r p.current p.state.configuration p.state.context
      p.state.history us)).outcome.bind _
    match Microstep.take t r p.current p.state.configuration p.state.context p.state.history us with
    | .ok m => rfl
    | .error (.failed err) => rfl
    | .error .illegal => rfl
  | @raised e rest us hs hr he hus =>
    rw [loop_of_running hs.running hs.below_limit, Turn.outcome_bind, choose_of_nil hs.none_enabled,
      hr]
    change (choose t r config p.state e false >>= _).outcome = (ofFault (Microstep.take t r e
      p.state.configuration p.state.context p.state.history us)).outcome.bind _
    rw [Turn.outcome_bind, choose_of_ne_nil he hus]
    match Microstep.take t r e p.state.configuration p.state.context p.state.history us with
    | .ok m => rfl
    | .error (.failed err) => rfl
    | .error .illegal => rfl

theorem loop_of_skip (hs : Settled t r config p) (hr : p.raised = e :: rest)
    (he : (selection t r config p.state e false).result = .ok []) :
    (loop t r config commit p).outcome =
      (loop t r config commit (dequeue t r config p e rest)).outcome := by
  rw [loop_of_running hs.running hs.below_limit, Turn.outcome_bind, choose_of_nil hs.none_enabled,
    hr]
  change (choose t r config p.state e false >>= _).outcome = _
  rw [Turn.outcome_bind, choose_of_nil he]
  rfl

theorem loop_of_stops (commit : Commit σ C) (h : Stops t r config p p') :
    (loop t r config commit p).outcome = .ok p' := by
  cases h with
  | done hd =>
    rw [loop, if_pos hd]
    rfl
  | limited hd hl =>
    rw [loop, if_neg (by simp [hd]), if_pos hl]
    rfl
  | failed hd hl hs =>
    rw [loop_of_running hd hl, Turn.outcome_bind, choose_of_error hs]
    rfl
  | resting hs hr =>
    rw [loop_of_running hs.running hs.below_limit, Turn.outcome_bind,
      choose_of_nil hs.none_enabled, hr]
    rfl
  | @raised e rest err hs hr he =>
    rw [loop_of_running hs.running hs.below_limit, Turn.outcome_bind,
      choose_of_nil hs.none_enabled, hr]
    change (choose t r config p.state e false >>= _).outcome = _
    rw [Turn.outcome_bind, choose_of_error he]
    rfl

theorem stops_state (h : Stops t r config p p') : p'.state = p.state := by
  cases h <;> rfl

theorem stops_shell (h : Stops t r config p p') : p'.shell = p.shell := by
  cases h <;> rfl

theorem stops_microsteps (h : Stops t r config p p') : p'.microsteps = p.microsteps := by
  cases h <;> rfl

-- What a macrostep does next: it takes transitions, drops a raised event, or ends.
theorem loop_cases (t : Tree) (r : Registry C S) (config : Config) (p : Progress σ C) :
    (∃ q us, Offers t r config p q us) ∨
    (∃ e rest, Settled t r config p ∧ p.raised = e :: rest ∧
      (selection t r config p.state e false).result = .ok []) ∨
    ∃ p', Stops t r config p p' := by
  cases hd : p.state.done
  case true => exact .inr (.inr ⟨p, .done hd⟩)
  by_cases hl : config.maxMicrosteps ≤ p.microsteps
  case pos => exact .inr (.inr ⟨_, .limited hd hl⟩)
  have hl := Nat.not_le.mp hl
  match hs : (selection t r config p.state p.current true).result with
  | .error err => exact .inr (.inr ⟨_, .failed hd hl hs⟩)
  | .ok (u :: us) => exact .inl ⟨_, _, .always hd hl hs (by simp)⟩
  | .ok [] =>
    have hset : Settled t r config p := ⟨hd, hl, hs⟩
    match hr : p.raised with
    | [] => exact .inr (.inr ⟨_, .resting hset hr⟩)
    | e :: rest =>
      match he : (selection t r config p.state e false).result with
      | .error err => exact .inr (.inr ⟨_, .raised hset hr he⟩)
      | .ok (u :: us) => exact .inl ⟨_, _, .raised hset hr he (by simp)⟩
      | .ok [] => exact .inr (.inl ⟨e, rest, hset, rfl, he⟩)

theorem offers_state (h : Offers t r config p q us) : q.state = p.state := by
  cases h <;> rfl

theorem offers_shell (h : Offers t r config p q us) : q.shell = p.shell := by
  cases h <;> rfl

theorem offers_running (h : Offers t r config p q us) : q.state.done = false := by
  cases h with
  | always hd => exact hd
  | raised hs => exact hs.running

theorem offers_microsteps (h : Offers t r config p q us) :
    q.microsteps = p.microsteps ∧ p.microsteps < config.maxMicrosteps := by
  cases h with
  | always _ hl => exact ⟨rfl, hl⟩
  | raised hs => exact ⟨rfl, hs.below_limit⟩

theorem takes_microsteps (h : Takes t r commit q us q') : q'.microsteps = q.microsteps + 1 := by
  cases h
  rfl

theorem round_error (h : Round t r config commit p q) : q.error = p.error := by
  cases h with
  | skip => rfl
  | microstep ho ht =>
    cases ht
    cases ho <;> rfl

-- Between two microsteps nothing changes but what is still to be processed.
theorem round_cases (h : Round t r config commit p q) :
    (q.microsteps = p.microsteps + 1 ∧ q.lastEvent = some q.current) ∨
      (q.microsteps = p.microsteps ∧ q.state = p.state ∧ q.shell = p.shell) := by
  cases h with
  | microstep ho ht =>
    refine .inl ⟨(takes_microsteps ht).trans (by rw [(offers_microsteps ho).left]), ?_⟩
    cases ht
    rfl
  | skip => exact .inr ⟨rfl, rfl, rfl⟩

theorem started_unfailing (h : Started t r config commit shell s trigger p) :
    p.error = none ∧ p.microsteps = 1 ∧ p.lastEvent = some p.current := by
  cases h with
  | start => exact ⟨rfl, rfl, rfl⟩
  | event _ _ ht =>
    cases ht
    exact ⟨rfl, rfl, rfl⟩

-- Microsteps are limited, and between two of them the queue gets shorter.
theorem round_wellFounded (t : Tree) (r : Registry C S) (config : Config) (commit : Commit σ C) :
    WellFounded fun q p => Round t r config commit p q := by
  refine Subrelation.wf (fun {q p} h => ?_) (InvImage.wf
    (fun p => (config.maxMicrosteps - p.microsteps, p.raised.length))
    (Prod.lex Nat.lt_wfRel Nat.lt_wfRel).wf)
  cases h with
  | microstep ho ht =>
    have ⟨he, hl⟩ := offers_microsteps ho
    have hq := takes_microsteps ht
    have hm : config.maxMicrosteps - q.microsteps < config.maxMicrosteps - p.microsteps := by
      omega
    exact Prod.Lex.left _ _ hm
  | @skip e rest _ hr _ =>
    have hm : rest.length < p.raised.length := by simp [hr]
    exact Prod.Lex.right _ hm

theorem begin_step_crash_iff : (begin t r config commit q (.step m)).outcome = .error k ↔
    (commit q.shell m q.current).outcome = .error k ∨
      ∃ shell, (commit q.shell m q.current).outcome = .ok (shell, none) ∧
        (loop t r config commit (q.accept shell m)).outcome = .error k := by
  rw [begin, Turn.outcome_bind]
  match (commit q.shell m q.current).outcome with
  | .error _ => simp [Except.bind]
  | .ok (shell, some err) => simp [Except.bind]
  | .ok (shell, none) => simp [Except.bind]

-- A microstep breaks off by itself, or the rounds after it do.
theorem attempt_crash_iff : ((ofFault (attempt t r q us)).outcome.bind fun c =>
      (begin t r config commit q c).outcome) = .error k ↔
    Breaks t r commit q us k ∨
      ∃ q', Takes t r commit q us q' ∧ (loop t r config commit q').outcome = .error k := by
  match hm : attempt t r q us with
  | .error (.failed err) =>
    apply iff_of_false (by simp [ofFault, begin, Except.bind])
    rintro ((ha | ⟨ha, _⟩) | ⟨_, ⟨ha, _⟩, _⟩)
    all_goals simp [hm] at ha
  | .error .illegal =>
    constructor
    case mp =>
      intro h
      cases h
      exact .inl (.illegal hm)
    case mpr =>
      rintro ((_ | ⟨ha, _⟩) | ⟨_, ⟨ha, _⟩, _⟩)
      case inl.illegal => rfl
      all_goals simp [hm] at ha
  | .ok m =>
    refine begin_step_crash_iff.trans ⟨?_, ?_⟩
    case refine_1 =>
      rintro (h | ⟨shell, hc, h⟩)
      · exact .inl (.commit hm h)
      · exact .inr ⟨_, ⟨hm, hc⟩, h⟩
    case refine_2 =>
      rintro ((ha | ⟨ha, hc⟩) | ⟨_, ⟨ha, hc⟩, h⟩)
      all_goals simp_all

theorem attempt_of_takes (ht : Takes t r commit q us q') :
    ((ofFault (attempt t r q us)).outcome.bind fun c => (begin t r config commit q c).outcome) =
      (loop t r config commit q').outcome := by
  cases ht with
  | @intro m shell hm hc =>
    rw [hm]
    change (begin t r config commit q (.step m)).outcome = _
    rw [begin, Turn.outcome_bind, hc]
    rfl

theorem loop_of_rounds (h : Relation.ReflTransGen (Round t r config commit) p p') :
    (loop t r config commit p).outcome = (loop t r config commit p').outcome := by
  induction h with
  | refl => rfl
  | tail _ h ih =>
    rw [ih]
    cases h with
    | microstep ho ht => exact (loop_of_offers ho).trans (attempt_of_takes ht)
    | skip hs hr he => exact loop_of_skip hs hr he

-- A loop breaks off exactly if one of the microsteps it comes to does.
theorem loop_crash_iff : (loop t r config commit p).outcome = .error k ↔
    ∃ p' q us, Relation.ReflTransGen (Round t r config commit) p p' ∧ Offers t r config p' q us ∧
      Breaks t r commit q us k := by
  constructor
  case mp =>
    intro h
    induction p using (round_wellFounded t r config commit).induction with
    | h p ih =>
      have hstep {p'} (hr : Round t r config commit p p')
          (h : (loop t r config commit p').outcome = .error k) :
          ∃ p' q us, Relation.ReflTransGen (Round t r config commit) p p' ∧
            Offers t r config p' q us ∧ Breaks t r commit q us k :=
        have ⟨p'', q, us, hrs, hq⟩ := ih p' hr h
        ⟨p'', q, us, .head hr hrs, hq⟩
      rcases loop_cases t r config p with ⟨q, us, ho⟩ | ⟨e, rest, hs, hr, he⟩ | ⟨q, hq⟩
      · cases (attempt_crash_iff.mp (loop_of_offers ho ▸ h))
        case inl hb => exact ⟨p, q, us, .refl, ho, hb⟩
        case inr he =>
          have ⟨q', ht, h⟩ := he
          exact hstep (.microstep ho ht) h
      · exact hstep (.skip hs hr he) (loop_of_skip hs hr he ▸ h)
      · simp [loop_of_stops commit hq] at h
  case mpr =>
    intro ⟨p', q, us, hr, ho, hb⟩
    rw [loop_of_rounds hr, loop_of_offers ho]
    exact attempt_crash_iff.mpr (.inl hb)

theorem begin_step_ok (h : (begin t r config commit q (.step m)).outcome = .ok p') :
    (∃ shell err, (commit q.shell m q.current).outcome = .ok (shell, some err) ∧
      p' = q.refuse shell m err) ∨
    ∃ shell, (commit q.shell m q.current).outcome = .ok (shell, none) ∧
      (loop t r config commit (q.accept shell m)).outcome = .ok p' := by
  rw [begin, Turn.outcome_bind] at h
  match hc : (commit q.shell m q.current).outcome with
  | .error _ =>
    rw [hc] at h
    contradiction
  | .ok (shell, some err) =>
    rw [hc] at h
    cases h
    exact .inl ⟨shell, err, rfl, rfl⟩
  | .ok (shell, none) =>
    rw [hc] at h
    exact .inr ⟨shell, rfl, h⟩

-- Transitions that are enabled cannot be planned, are refused, or are taken.
theorem attempt_ok (h : ((ofFault (attempt t r q us)).outcome.bind fun c =>
      (begin t r config commit q c).outcome) = .ok p') :
    (∃ err, attempt t r q us = .error (.failed err) ∧ p' = q.fail err) ∨
    (∃ m shell err, attempt t r q us = .ok m ∧
      (commit q.shell m q.current).outcome = .ok (shell, some err) ∧ p' = q.refuse shell m err) ∨
    ∃ q', Takes t r commit q us q' ∧ (loop t r config commit q').outcome = .ok p' := by
  match hm : attempt t r q us with
  | .error (.failed err) =>
    rw [hm] at h
    cases h
    exact .inl ⟨err, rfl, rfl⟩
  | .error .illegal =>
    rw [hm] at h
    contradiction
  | .ok m =>
    rw [hm] at h
    cases (begin_step_ok h)
    case inl he =>
      have ⟨shell, err, hc, hp⟩ := he
      exact .inr (.inl ⟨m, shell, err, rfl, hc, hp⟩)
    case inr he =>
      have ⟨shell, hc, h⟩ := he
      exact .inr (.inr ⟨_, ⟨hm, hc⟩, h⟩)

-- What a loop comes to next: it stops, it goes on after a round, or the transitions that it offers
-- cannot be planned or are refused.
theorem loop_next (h : (loop t r config commit p).outcome = .ok p') :
    Stops t r config p p' ∨
    (∃ q, Round t r config commit p q ∧ (loop t r config commit q).outcome = .ok p') ∨
    ∃ q us, Offers t r config p q us ∧ ((∃ err, p' = q.fail err) ∨ ∃ m shell err,
      attempt t r q us = .ok m ∧ (commit q.shell m q.current).outcome = .ok (shell, some err) ∧
        p' = q.refuse shell m err) := by
  rcases loop_cases t r config p with ⟨q, us, ho⟩ | ⟨e, rest, hs, hr, he⟩ | ⟨q, hq⟩
  · rcases attempt_ok (loop_of_offers ho ▸ h) with ⟨err, _, hp⟩ | hrefused | ⟨q', ht, h⟩
    · exact .inr (.inr ⟨q, us, ho, .inl ⟨err, hp⟩⟩)
    · exact .inr (.inr ⟨q, us, ho, .inr hrefused⟩)
    · exact .inr (.inl ⟨q', .microstep ho ht, h⟩)
  · exact .inr (.inl ⟨_, .skip hs hr he, loop_of_skip hs hr he ▸ h⟩)
  · obtain rfl := Except.ok.inj ((loop_of_stops commit hq).symm.trans h)
    exact .inl hq

theorem loop_ok (h : (loop t r config commit p).outcome = .ok p') :
    ∃ q, Relation.ReflTransGen (Round t r config commit) p q ∧ Ends t r config commit q p' := by
  induction p using (round_wellFounded t r config commit).induction with
  | h p ih =>
    rcases loop_next h with hq | ⟨q, hr, h⟩ | ⟨q, us, ho, ⟨err, rfl⟩ | ⟨m, shell, err, hm, hc, rfl⟩⟩
    · exact ⟨p, .refl, .resting (stops_state hq) (stops_shell hq)⟩
    · have ⟨q', hrs, hq⟩ := ih q hr h
      exact ⟨q', .head hr hrs, hq⟩
    · have hst := offers_state ho
      have hsh := offers_shell ho
      exact ⟨p, .refl, .resting hst hsh⟩
    · exact ⟨p, .refl, .refused ho hm hc⟩

-- Without an error a loop ends at once, or goes on with a round.
theorem loop_flawless (h : (loop t r config commit p).outcome = .ok p') (he : p'.error = none) :
    Stops t r config p p' ∨
      ∃ q, Round t r config commit p q ∧ (loop t r config commit q).outcome = .ok p' := by
  rcases loop_next h with hq | hr | ⟨_, _, _, ⟨_, rfl⟩ | ⟨_, _, _, _, _, rfl⟩⟩
  · exact .inl hq
  · exact .inr hr
  · contradiction
  · contradiction

theorem run_event_outcome : (run t r config commit shell s (.event e)).outcome =
    (choose t r config s e false).outcome.bind fun c => (begin t r config commit
      ({ shell, state := s, current := e : Progress σ C }.noteErrors c.2) c.1).outcome := by
  rw [run]
  exact Turn.outcome_bind

theorem run_event_of_selection (hs : (selection t r config s e false).result = .ok us)
    (hus : us ≠ []) : (run t r config commit shell s (.event e)).outcome =
      (ofFault (attempt t r (opening t r config shell s e) us)).outcome.bind fun c =>
        (begin t r config commit (opening t r config shell s e) c).outcome := by
  rw [run_event_outcome, choose_of_ne_nil hs hus]
  change _ = (ofFault (Microstep.take t r e s.configuration s.context s.history us)).outcome.bind _
  cases (ofFault (Microstep.take t r e s.configuration s.context s.history us)).outcome <;> rfl

theorem run_start_outcome : (run t r config commit shell s .start).outcome =
    (ofFault (Microstep.initial t r .init s.context s.history)).outcome.bind fun c =>
      (begin t r config commit
        { shell := shell, state := s, current := .init : Progress σ C } c).outcome := by
  rw [run]
  exact Turn.outcome_bind

theorem run_start_of_initial (config : Config) {shell' : σ}
    (hm : Microstep.initial t r .init s.context s.history = .ok m)
    (hc : (commit shell m .init).outcome = .ok (shell', none)) :
    (run t r config commit shell s .start).outcome = (loop t r config commit
      ({ shell, state := s, current := .init : Progress σ C }.accept shell' m)).outcome := by
  rw [run_start_outcome, hm]
  change (begin t r config commit _ (.step m)).outcome = _
  rw [begin, Turn.outcome_bind, hc]
  rfl

theorem run_of_started (h : Started t r config commit shell s trigger p) :
    (run t r config commit shell s trigger).outcome = (loop t r config commit p).outcome := by
  cases h with
  | start hm hc => exact run_start_of_initial config hm hc
  | event hs hus ht => exact (run_event_of_selection hs hus).trans (attempt_of_takes ht)

theorem started_of_reacts {s' : MachineState C} {shell' : σ}
    (h : Reacts t r config s trigger m s')
    (hc : (commit shell m trigger.toEvent).outcome = .ok (shell', none)) :
    ∃ p, Started t r config commit shell s trigger p ∧ p.state = s' ∧
      p.current = trigger.toEvent ∧ p.microsteps = 1 := by
  cases h.opens with
  | start hm => exact ⟨_, .start hm hc, h.after, rfl, rfl⟩
  | event hs _ hus hm => exact ⟨_, .event hs hus ⟨hm, hc⟩, h.after, rfl, rfl⟩

theorem run_of_reacts {s' : MachineState C} {shell' : σ} (h : Reacts t r config s trigger m s')
    (hc : (commit shell m trigger.toEvent).outcome = .ok (shell', none)) :
    (run t r config commit shell s trigger).outcome = .ok {
      shell := shell'
      state := s'
      current := trigger.toEvent
      microsteps := 1
      lastEvent := some trigger.toEvent } := by
  obtain ⟨hopens, rfl, hr, hd, hl, hn, hg⟩ := h
  cases hopens with
  | start hm =>
    refine (run_of_started (.start hm hc)).trans ?_
    have hs : Settled t r config
        ({ shell := shell, state := s, current := .init : Progress σ C }.accept shell' m) :=
      ⟨hd, hl, hn⟩
    rw [loop_of_stops commit (.resting hs hr)]
    simpa [Progress.accept, Progress.noteErrors, Trigger.toEvent, hr] using hg
  | @event e us _ hsel hg₀ hus hm =>
    refine (run_of_started (.event hsel hus ⟨hm, hc⟩)).trans ?_
    have hs : Settled t r config ((opening t r config shell s e).accept shell' m) :=
      ⟨hd, hl, hn⟩
    rw [loop_of_stops commit (.resting hs hr)]
    simpa [Progress.accept, Progress.noteErrors, opening, Trigger.toEvent, hr, hg₀] using hg

-- A macrostep that comes to take `us` at `q` goes on from there.
theorem run_of_attempts (ha : Attempts t r config commit shell s trigger q us) :
    (run t r config commit shell s trigger).outcome =
      (ofFault (attempt t r q us)).outcome.bind fun c => (begin t r config commit q c).outcome := by
  cases ha with
  | first hs hus => exact run_event_of_selection hs hus
  | later hst hr ho =>
    rw [← loop_of_offers ho, ← loop_of_rounds hr]
    exact run_of_started hst

theorem run_event_crash_iff : (run t r config commit shell s (.event e)).outcome = .error k ↔
    ∃ q us, Attempts t r config commit shell s (.event e) q us ∧ Breaks t r commit q us k := by
  constructor
  case mp =>
    intro h
    match hs : (selection t r config s e false).result with
    | .error err =>
      rw [run_event_outcome, choose_of_error hs] at h
      contradiction
    | .ok [] =>
      rw [run_event_outcome, choose_of_nil hs] at h
      contradiction
    | .ok (u :: us) =>
      rw [run_event_of_selection hs (by simp)] at h
      cases (attempt_crash_iff.mp h)
      case inl hb => exact ⟨_, _, .first hs (by simp), hb⟩
      case inr he =>
        have ⟨q', ht, h⟩ := he
        have ⟨p', q, us, hr, ho, hb⟩ := loop_crash_iff.mp h
        exact ⟨q, us, .later (.event hs (by simp) ht) hr ho, hb⟩
  case mpr =>
    intro ⟨q, us, ha, hb⟩
    rw [run_of_attempts ha]
    exact attempt_crash_iff.mpr (.inl hb)

theorem run_start_crash_iff : (run t r config commit shell s .start).outcome = .error k ↔
    (Microstep.initial t r .init s.context s.history = .error .illegal ∧
      k = .illegalConfiguration) ∨
    (∃ m, Microstep.initial t r .init s.context s.history = .ok m ∧
      (commit shell m .init).outcome = .error k) ∨
    ∃ q us, Attempts t r config commit shell s .start q us ∧ Breaks t r commit q us k := by
  rw [run_start_outcome]
  constructor
  case mp =>
    intro h
    match hm : Microstep.initial t r .init s.context s.history with
    | .error (.failed err) =>
      rw [hm] at h
      contradiction
    | .error .illegal =>
      rw [hm] at h
      cases h
      exact .inl ⟨rfl, rfl⟩
    | .ok m =>
      rw [hm] at h
      cases (begin_step_crash_iff.mp h)
      case inl h => exact .inr (.inl ⟨m, rfl, h⟩)
      case inr he =>
        have ⟨shell', hc, h⟩ := he
        have ⟨p', q, us, hr, ho, hb⟩ := loop_crash_iff.mp h
        exact .inr (.inr ⟨q, us, .later (.start hm hc) hr ho, hb⟩)
  case mpr =>
    rintro (⟨hm, rfl⟩ | ⟨m, hm, h⟩ | ⟨q, us, ha, hb⟩)
    · rw [hm]
      rfl
    · rw [hm]
      exact begin_step_crash_iff.mpr (.inl h)
    · rw [← run_start_outcome, run_of_attempts ha]
      exact attempt_crash_iff.mpr (.inl hb)

-- How a macrostep begins: its trigger enables nothing, its first microstep fails or is refused, or
-- it is committed and the loop goes on from there.
theorem run_cases (h : (run t r config commit shell s trigger).outcome = .ok p') :
    (∃ e, trigger = .event e ∧ (selection t r config s e false).result = .ok [] ∧
      p' = opening t r config shell s e) ∨
    (p'.error ≠ none ∧ p'.microsteps = 0 ∧ (∃ x, p'.state = { s with context := x }) ∧
      Finishes t r config commit shell s trigger p') ∨
    ∃ q, Started t r config commit shell s trigger q ∧
      (loop t r config commit q).outcome = .ok p' := by
  cases trigger with
  | start =>
    rw [run_start_outcome] at h
    match hm : Microstep.initial t r .init s.context s.history with
    | .error (.failed err) =>
      rw [hm] at h
      cases h
      exact .inr (.inl ⟨Option.some_ne_none _, rfl, ⟨s.context, rfl⟩,
        .unmoved rfl rfl fun _ => Option.some_ne_none _⟩)
    | .error .illegal =>
      rw [hm] at h
      contradiction
    | .ok m =>
      rw [hm] at h
      rcases begin_step_ok h with ⟨shell', err, hc, rfl⟩ | ⟨shell', hc, h⟩
      · exact .inr (.inl ⟨Option.some_ne_none _, rfl, ⟨m.context, rfl⟩, .unstarted hm hc⟩)
      · exact .inr (.inr ⟨_, .start hm hc, h⟩)
  | event e =>
    match hs : (selection t r config s e false).result with
    | .error err =>
      rw [run_event_outcome, choose_of_error hs] at h
      cases h
      exact .inr (.inl ⟨Option.some_ne_none _, rfl, ⟨s.context, rfl⟩, .unmoved rfl rfl nofun⟩)
    | .ok [] =>
      rw [run_event_outcome, choose_of_nil hs] at h
      exact .inl ⟨e, rfl, hs, (Except.ok.inj h).symm⟩
    | .ok (u :: us) =>
      rw [run_event_of_selection hs (by simp)] at h
      rcases attempt_ok h with ⟨err, _, rfl⟩ | ⟨m, shell', err, hm, hc, rfl⟩ | ⟨q', ht, h⟩
      · exact .inr (.inl ⟨Option.some_ne_none _, rfl, ⟨s.context, rfl⟩, .unmoved rfl rfl nofun⟩)
      · exact .inr (.inl ⟨Option.some_ne_none _, rfl, ⟨m.context, rfl⟩,
          .refused hs (by simp) hm hc⟩)
      · exact .inr (.inr ⟨_, .event hs (by simp) ht, h⟩)

theorem run_ok (h : (run t r config commit shell s trigger).outcome = .ok p') :
    Finishes t r config commit shell s trigger p' := by
  rcases run_cases h with ⟨e, rfl, _, rfl⟩ | ⟨_, _, _, hf⟩ | ⟨q, hst, h⟩
  · exact .unmoved rfl rfl nofun
  · exact hf
  · have ⟨q', hr, hq⟩ := loop_ok h
    exact .started hst hr hq

-- Without an error the first microstep is committed, or there is none.
theorem run_flawless (h : (run t r config commit shell s trigger).outcome = .ok p')
    (he : p'.error = none) :
    (∃ e, trigger = .event e ∧ (selection t r config s e false).result = .ok [] ∧
      p' = opening t r config shell s e) ∨
    ∃ q, Started t r config commit shell s trigger q ∧
      (loop t r config commit q).outcome = .ok p' :=
  (run_cases h).imp_right (·.resolve_left fun hf => hf.left he)

-- The state at the end is one that the rounds lead to, up to its context.
theorem run_state (h : (run t r config commit shell s trigger).outcome = .ok p') :
    (∃ x, p'.state = { s with context := x }) ∨
      ∃ p q x, Started t r config commit shell s trigger p ∧
        Relation.ReflTransGen (Round t r config commit) p q ∧
        p'.state = { q.state with context := x } := by
  cases run_ok h with
  | unmoved hs _ _ => exact .inl ⟨s.context, hs⟩
  | unstarted => exact .inl ⟨_, rfl⟩
  | refused => exact .inl ⟨_, rfl⟩
  | @started _ p q _ hst hr he =>
    cases he with
    | resting hs _ => exact .inr ⟨p, q, q.state.context, hst, hr, hs⟩
    | @refused _ us m _ _ ho _ _ =>
      exact .inr ⟨p, q, m.context, hst, hr, by simp [Progress.refuse, offers_state ho]⟩

section Preserved

variable {J : σ → MachineState C → Prop}
  (htakes : ∀ {q us q' e eventless}, J q.shell q.state → q.state.done = false →
    (selection t r config q.state e eventless).result = .ok us → us ≠ [] →
    Takes t r commit q us q' → J q'.shell q'.state)
include htakes

-- What every microstep keeps still holds after some rounds.
theorem rounds_preserve (hp : J p.shell p.state)
    (hr : Relation.ReflTransGen (Round t r config commit) p q) : J q.shell q.state := by
  induction hr with
  | refl => exact hp
  | @tail b _ _ hr ih =>
    cases hr with
    | skip => exact ih
    | microstep ho ht =>
      cases ho with
      | always hd _ hs hus => exact htakes (q := b.noteErrors _) ih hd hs hus ht
      | raised hset _ hs hus => exact htakes (q := dequeue ..) ih hset.running hs hus ht

-- It holds in the end if the first microstep brings it about and one that is refused keeps it too.
theorem run_preserves (hstarted : ∀ {p}, Started t r config commit shell s trigger p →
      J p.shell p.state)
    (hrefuse : ∀ {shell s m e shell' err}, J shell s →
      (commit shell m e).outcome = .ok (shell', some err) →
      J shell' { s with context := m.context })
    (hs : J shell s) (h : (run t r config commit shell s trigger).outcome = .ok p') :
    J p'.shell p'.state := by
  cases run_ok h with
  | unmoved he hsh _ => exact he ▸ hsh ▸ hs
  | unstarted _ hc => exact hrefuse hs hc
  | refused _ _ _ hc => exact hrefuse hs hc
  | started hst hr he =>
    have hq := rounds_preserve htakes (hstarted hst) hr
    cases he with
    | resting he hsh => exact he ▸ hsh ▸ hq
    | refused ho _ hc => exact hrefuse (offers_state ho ▸ offers_shell ho ▸ hq) hc

end Preserved

section Shell

variable {I : σ → Prop}
  (hI : ∀ s m e s', I s → (commit s m e).outcome = .ok (s', none) → I s')
include hI

theorem shell_of_takes (hq : I q.shell) (h : Takes t r commit q us q') : I q'.shell := by
  cases h with
  | intro _ hc => exact hI _ _ _ _ hq hc

theorem shell_of_started (hs : I shell) (hst : Started t r config commit shell s trigger p) :
    I p.shell := by
  cases hst with
  | start _ hc => exact hI _ _ _ _ hs hc
  | event _ _ ht => exact shell_of_takes hI (q := opening ..) hs ht

-- What every commit keeps still holds after some rounds.
theorem shell_of_rounds (hs : I shell) (hst : Started t r config commit shell s trigger p)
    (hr : Relation.ReflTransGen (Round t r config commit) p q) : I q.shell :=
  rounds_preserve (J := fun shell _ => I shell) (fun hq _ _ _ ht => shell_of_takes hI hq ht)
    (shell_of_started hI hs hst) hr

-- It holds in the end if commits that refuse keep it too.
theorem shell_of_run
    (hI' : ∀ s m e s' err, I s → (commit s m e).outcome = .ok (s', some err) → I s') (hs : I shell)
    (h : (run t r config commit shell s trigger).outcome = .ok p') : I p'.shell :=
  run_preserves (J := fun shell _ => I shell) (fun hq _ _ _ ht => shell_of_takes hI hq ht)
    (shell_of_started hI hs) (fun hs hc => hI' _ _ _ _ _ hs hc) hs h

end Shell

end Macrostep

end Statechart
