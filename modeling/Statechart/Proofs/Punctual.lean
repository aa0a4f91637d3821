import Statechart.Proofs.Agenda
import Statechart.Proofs.Ownership

-- When the delayed events of an interpreter are delivered, and in which order. Its course comes to
-- calls of its scheduler, and what these answer is what is delivered.

namespace Statechart

open Scheduler (Call)

namespace Planned

variable {now : Duration} {s : Scheduler} {c : Call}

-- What the action calls the scheduler for.
def call? (now : Duration) : Planned → Option Call
  | .cancel id => some (.cancelId id)
  | .cancelOwned owner => some (.cancelOwner owner)
  | a => (a.scheduled? now).map .schedule

def calls (now : Duration) (actions : List Planned) : List Call := actions.filterMap (call? now)

theorem replay_call? (a : Planned) : s.replay (a.call? now).toList = s.after now a := by
  cases a with
  | send event target delay id owner =>
    simp only [call?, Scheduler.after]
    cases scheduled? now (.send event target delay id owner) <;> rfl
  | _ => rfl

theorem replay_calls (actions : List Planned) :
    s.replay (calls now actions) = actions.foldl (Scheduler.after now) s := by
  induction actions generalizing s with
  | nil => rfl
  | cons a rest ih =>
    rw [List.foldl_cons, ← ih, ← replay_call?, ← Scheduler.replay_append, calls, calls,
      List.filterMap_cons]
    cases a.call? now <;> rfl

-- Nothing is scheduled for a time that is over.
theorem le_deadline {actions : List Planned} {e : Scheduled}
    (h : .schedule e ∈ calls now actions) : now ≤ e.deadline := by
  obtain ⟨a, _, ha⟩ := List.mem_filterMap.mp h
  cases a with
  | send event target delay id owner =>
    simp only [call?, Option.map_eq_some_iff] at ha
    obtain ⟨e', hs, he⟩ := ha
    cases he
    cases delay with
    | none => contradiction
    | some delay =>
      obtain ⟨deadline, hd, rfl⟩ := Option.map_eq_some_iff.mp hs
      rw [Duration.add?] at hd
      split at hd
      · cases hd
        exact Nat.le_add_right ..
      · contradiction
  | _ => simp [call?, scheduled?] at ha

-- What an action schedules is all that it calls for.
theorem calls_ne_popDue {actions : List Planned} {t : Duration} :
    .popDue t ∉ calls now actions := by
  intro h
  obtain ⟨a, _, ha⟩ := List.mem_filterMap.mp h
  cases a with
  | send => simp [call?] at ha
  | _ => simp [call?, scheduled?] at ha

end Planned

variable {C S A : Type}

-- The scheduler `s` is called when `h` happens.
inductive Happening.Calls (now : Duration) (s : Scheduler) : Happening C → List Call → Prop
  | arrived {v} : Calls now s (.arrived v) []
  | taken {v} : Calls now s (.taken v) []
  | committed {e us m} : Calls now s (.committed e us m) (Planned.calls now m.actions)
  -- up to the action that fails
  | refused {e us m done} : done <+: m.actions →
      Calls now s (.refused e us m) (Planned.calls now done)
  | resumed {c actions} : Calls now s (.resumed c actions) (Planned.calls now actions)
  -- what is delivered is what the call answers
  | delivered {p waiting rest} : s.queue = p :: rest → p.deadline ≤ now →
      Calls now s (.delivered p waiting) [.popDue now]
  | halted : Calls now s .halted [.cancelAll]

def Happening.delivered? : Happening C → Option Pending
  | .delivered p _ => some p
  | _ => none

namespace Log

variable {k : Nat} {log log' : Log C} {calls : List Call} {now t : Duration} {p : Pending}
  {waiting : List Envelope}

-- All calls that `log` comes to, for a scheduler that numbers events from `k` on.
inductive Calls (k : Nat) : Log C → List Call → Prop
  | nil : Calls k [] []
  | cons {t h log calls calls'} : Calls k log calls →
      h.Calls t (Scheduler.replay { lastTicket := k } calls) calls' →
      Calls k ((t, h) :: log) (calls ++ calls')

-- The delayed events that were delivered, the latest first.
def deliveries (log : Log C) : List Pending := log.filterMap (·.2.delivered?)

-- Delayed events are what the scheduler answers. They are delivered once at most, not before they
-- are due, in the order of their deadlines and, if these are equal, in the order in which they were
-- scheduled, and not after they were cancelled or replaced.
structure Punctual (k : Nat) (log : Log C) (calls : List Call) : Prop where
  answered : (Scheduler.answers { lastTicket := k } calls).filterMap id =
    log.deliveries.reverse.map (·.toScheduled)
  once : log.deliveries.Pairwise fun q p => q.ticket ≠ p.ticket
  due {t : Duration} {p : Pending} {waiting : List Envelope} :
    (t, .delivered p waiting) ∈ log → p.deadline ≤ t
  ordered : log.deliveries.Pairwise fun q p => p.deadline < q.deadline ∨
    p.deadline = q.deadline ∧ p.ticket < q.ticket
  live {t : Duration} {p : Pending} {waiting : List Envelope} {earlier : Log C} :
    (t, .delivered p waiting) :: earlier <:+ log →
    ∃ before after later, calls = before ++ .schedule p.toScheduled :: after ++ .popDue t :: later ∧
      earlier.Calls k (before ++ .schedule p.toScheduled :: after) ∧
      p.ticket = k + before.countP Call.schedules + 1 ∧
      ∀ c ∈ after, c.ends p.toScheduled = false

theorem Calls.of_suffix (h : log.Calls k calls) (hl : log' <:+ log) :
    ∃ before later, calls = before ++ later ∧ log'.Calls k before := by
  obtain ⟨since, rfl⟩ := hl
  induction since generalizing calls with
  | nil => exact ⟨calls, [], (List.append_nil _).symm, h⟩
  | cons x rest ih =>
    cases h with
    | cons h _ =>
      obtain ⟨before, later, rfl, hb⟩ := ih h
      exact ⟨before, _, List.append_assoc .., hb⟩

-- What happens does not always concern the scheduler.
theorem Calls.append (h : log.Calls k calls)
    (hl : ∀ x ∈ log', ∀ s, x.2.Calls x.1 s []) : (log' ++ log).Calls k calls := by
  induction log' with
  | nil => exact h
  | cons x rest ih =>
    obtain ⟨hx, hrest⟩ := List.forall_mem_cons.mp hl
    exact List.append_nil calls ▸ (ih hrest).cons (hx _)

end Log

-- The event is over: whatever waits comes after it.
structure Pending.Passed (p : Pending) (s : Scheduler) : Prop where
  numbered : p.ticket ≤ s.lastTicket
  before {q : Pending} : q ∈ s.queue → p.isBefore q = true ∧ q.ticket ≠ p.ticket

namespace Pending.Passed

variable {p q : Pending} {s : Scheduler} {c : Call} {calls : List Call} {now : Duration}

theorem call (h : p.Passed s) (hp : p.deadline ≤ now)
    (hc : ∀ e, c = .schedule e → now ≤ e.deadline) : p.Passed (s.call c).2 where
  numbered := Nat.le_trans h.numbered (Scheduler.lastTicket_call ▸ Nat.le_add_right ..)
  before {q} hq := by
    rcases Scheduler.mem_call hq with ⟨hq, _⟩ | ⟨hc', ht⟩
    · exact h.before hq
    · have hlt : p.ticket < q.ticket := ht ▸ Nat.lt_succ_of_le h.numbered
      exact ⟨isBefore_of_le (Nat.le_trans hp (hc _ hc')) hlt, Nat.ne_of_gt hlt⟩

theorem replay (h : p.Passed s) (hp : p.deadline ≤ now)
    (hc : ∀ e, .schedule e ∈ calls → now ≤ e.deadline) : p.Passed (s.replay calls) := by
  induction calls generalizing s with
  | nil => exact h
  | cons c rest ih =>
    exact ih (h.call hp fun e he => hc e (he ▸ List.mem_cons_self))
      fun e he => hc e (List.mem_cons_of_mem _ he)

-- What is next is over once it is asked for.
theorem of_popDue {rest : List Pending} (ho : s.Ordered) (hq : s.queue = p :: rest)
    (hd : p.deadline ≤ now) : p.Passed (s.call (.popDue now)).2 := by
  have hnumbered := ho.numbered p (hq ▸ List.mem_cons_self)
  have hsorted := ho.sorted
  have hdistinct := ho.distinct
  rw [hq] at hsorted hdistinct
  rw [Scheduler.call_popDue now hq, if_pos hd]
  exact ⟨hnumbered, fun {q} hmem => ⟨(List.pairwise_cons.mp hsorted).left q hmem,
    ((List.pairwise_cons.mp hdistinct).left q hmem).symm⟩⟩

end Pending.Passed

-- Nothing is scheduled for a time that is over.
theorem Happening.Calls.le_deadline {now : Duration} {s : Scheduler} {h : Happening C}
    {calls : List Call} (hc : h.Calls now s calls) {e : Scheduled} (he : .schedule e ∈ calls) :
    now ≤ e.deadline := by
  cases hc with
  | committed | refused | resumed => exact Planned.le_deadline he
  | _ => simp at he

namespace Log

variable {k : Nat} {log : Log C} {x : Duration × Happening C} {calls : List Call} {now : Duration}
  {p : Pending}

theorem mem_deliveries_cons : p ∈ deliveries (x :: log) ↔
    (∃ waiting, x.2 = .delivered p waiting) ∨ p ∈ log.deliveries := by
  obtain ⟨t, h⟩ := x
  rw [deliveries, List.filterMap_cons]
  cases h <;> simp [Happening.delivered?, deliveries, eq_comm]

-- What was delivered is over.
theorem Calls.passed (h : log.Calls k calls) (hl : log.Until now) (hp : p ∈ log.deliveries) :
    p.Passed (Scheduler.replay { lastTicket := k } calls) ∧ p.deadline ≤ now := by
  induction h generalizing now with
  | nil => contradiction
  | @cons t h log calls calls' hcalls hh ih =>
    obtain ⟨hl, ht⟩ := hl.of_suffix (List.suffix_refl _)
    rw [Scheduler.replay_append]
    rcases mem_deliveries_cons.mp hp with ⟨waiting, rfl⟩ | hp
    case inl =>
      cases hh with
      | delivered hq hd =>
        have ho : (Scheduler.replay { lastTicket := k } calls).Ordered :=
          Scheduler.Ordered.empty.replayed calls
        exact ⟨.of_popDue ho hq hd, Nat.le_trans hd ht⟩
    case inr =>
      obtain ⟨hpassed, hd⟩ := ih hl hp
      exact ⟨hpassed.replay hd fun e => hh.le_deadline, Nat.le_trans hd ht⟩

-- What is delivered comes after all that was delivered before.
theorem Calls.later (h : log.Calls k calls) (hl : log.Until now) :
    log.deliveries.Pairwise fun q p => p.isBefore q = true ∧ q.ticket ≠ p.ticket := by
  induction h generalizing now with
  | nil => exact .nil
  | cons hcalls hh ih =>
    obtain ⟨huntil, _⟩ := hl.of_suffix (List.suffix_refl _)
    cases hh with
    | delivered hq =>
      refine List.pairwise_cons.mpr ⟨fun p hp => ?_, ih huntil⟩
      obtain ⟨hpassed, _⟩ := hcalls.passed huntil hp
      exact hpassed.before (hq ▸ List.mem_cons_self)
    | _ => exact ih huntil

theorem Calls.answered (h : log.Calls k calls) :
    (Scheduler.answers { lastTicket := k } calls).filterMap id =
      log.deliveries.reverse.map (·.toScheduled) := by
  induction h with
  | nil => rfl
  | cons hcalls hh ih =>
    rw [Scheduler.answers_append, List.filterMap_append, ih]
    cases hh with
    | delivered hq hd =>
      rw [Scheduler.answers, Scheduler.call_popDue _ hq, if_pos hd]
      simp [Scheduler.answers, deliveries, Happening.delivered?]
    | committed | refused | resumed =>
      rw [Scheduler.answers_of_not_popDue fun _ => Planned.calls_ne_popDue]
      exact List.append_nil _
    | _ => exact List.append_nil _

theorem Calls.punctual_until (h : log.Calls k calls) (hl : log.Until now) :
    log.Punctual k calls where
  answered := h.answered
  once := (h.later hl).imp And.right
  due {t p waiting} hp := by
    obtain ⟨since, earlier, hlog⟩ := List.append_of_mem hp
    obtain ⟨_, _, _, hb⟩ := h.of_suffix ⟨since, hlog.symm⟩
    cases hb with
    | cons _ hh =>
      cases hh with
      | delivered _ hd => exact hd
  ordered := (h.later hl).imp fun ⟨h, _⟩ => by simpa [Pending.isBefore] using h
  live {t p waiting earlier} hp := by
    obtain ⟨_, later, rfl, hb⟩ := h.of_suffix hp
    cases hb with
    | cons hb hh =>
      cases hh with
      | delivered hq _ =>
        obtain ⟨before, after, rfl, ht, ha⟩ := Scheduler.mem_replay (hq ▸ List.mem_cons_self)
        exact ⟨before, after, later, by simp, hb, ht, ha⟩

end Log

section Course

variable [ActorModel C S A]

namespace Shell

variable {env : Env} {s s' : Shell C A} {r : Registry C S} {x : C} {e : Event} {a : Planned}
  {actions : List Planned} {failure : Option ExecutionError}

-- An action that fails calls the scheduler for nothing.
theorem perform_scheduler (h : (s.perform env r x e a).outcome = .ok (s', failure)) :
    s'.scheduler = s.scheduler.after env.now a := by
  cases failure with
  | none => exact (perform_ok h).frame.scheduler
  | some err =>
    rw [(perform_failed h).scheduler]
    cases a with
    | send sent target delay id owner =>
      cases delay with
      | none => rfl
      | some delay =>
        simp only [perform] at h
        split at h
        case h_1 hd => simp [Scheduler.after, Planned.scheduled?, hd]
        case h_2 => cases h
    | cancel | cancelOwned => cases h
    | _ => rfl

theorem performEach_scheduler (h : (s.performEach env r x e actions).outcome = .ok s') :
    s'.scheduler = actions.foldl (Scheduler.after env.now) s.scheduler := by
  induction actions generalizing s with
  | nil =>
    cases h
    rfl
  | cons a rest ih =>
    have ⟨s₂, h₂, h⟩ := Turn.bind_eq_ok.mp h
    have ⟨⟨s₁, failure⟩, h₁, h₂⟩ := Turn.bind_eq_ok.mp h₂
    have ⟨s₃, h₃, hn, _⟩ := reportAll_ok failure.toList s₁
    obtain rfl := Except.ok.inj (h₃.symm.trans h₂)
    rw [ih h, hn.scheduler, perform_scheduler h₁, List.foldl_cons]

end Shell

-- The scheduler is `s`, unless the interpreter has stopped and nothing waits any more.
def Stage.Schedules (s : Scheduler) : Stage C A → Prop
  | resting _ shell => shell.scheduler = s ∨
      shell.status = .stopped ∧ shell.scheduler.queue = [] ∧ s.queue = []
  | stepping p => p.shell.scheduler = s

variable {m : Machine C S} {now : Duration} {log : Log C} {stage : Stage C A}

namespace Stage.Schedules

variable {s : Scheduler} {state : MachineState C} {shell : Shell C A}

omit [ActorModel C S A]

theorem queue (h : stage.Schedules s) : stage.shell.scheduler.queue = s.queue := by
  cases stage with
  | resting =>
    rcases h with h | ⟨_, hq, hs⟩
    · exact congrArg Scheduler.queue h
    · exact hq.trans hs.symm
  | stepping => exact congrArg Scheduler.queue h

theorem of_ne_stopped (h : (Stage.resting state shell).Schedules s) (hs : shell.status ≠ .stopped) :
    shell.scheduler = s := h.resolve_right fun hstop => hs hstop.left

theorem of_plans {hap : List (Happening C)} {q : Progress (Shell C A) C} {us : List Transition}
    {step : Microstep C} (h : stage.Schedules s) (hp : Plans m stage hap q us step) :
    q.shell.scheduler = s := by
  rw [hp.scheduler]
  cases hp with
  | start hn => exact h.of_ne_stopped (by simp [hn])
  | event hr => exact h.of_ne_stopped (by simp [hr])
  | round => exact h

end Stage.Schedules

theorem Log.arrivals_silent {vs : List Envelope} :
    ∀ x ∈ Log.arrivals (C := C) now vs, ∀ s, x.2.Calls x.1 s [] := by
  intro x hx s
  obtain ⟨_, _, rfl⟩ := Log.mem_arrivals.mp hx
  exact .arrived

omit [ActorModel C S A] in
-- What happens on the way to a microstep does not concern the scheduler.
theorem Plans.silent {hap : List (Happening C)} {q : Progress (Shell C A) C}
    {us : List Transition} {step : Microstep C} (hp : Plans m stage hap q us step)
    (vs : List Envelope) :
    ∀ x ∈ Log.arrivals now vs ++ hap.map (now, ·), ∀ s, x.2.Calls x.1 s [] := by
  refine List.forall_mem_append.mpr ⟨Log.arrivals_silent, ?_⟩
  cases hp with
  | event => simpa using fun _ => .taken
  | _ => simp

namespace Course

-- A course comes to calls of the scheduler.
theorem calls (h : Course m now log stage) : ∃ k calls, log.Calls k calls ∧
    stage.Schedules (Scheduler.replay { lastTicket := k } calls) := by
  induction h with
  | @new _ _ shell _ _ hq _ =>
    refine ⟨shell.scheduler.lastTicket, [], .nil, .inl ?_⟩
    change shell.scheduler = { queue := [], lastTicket := shell.scheduler.lastTicket }
    rw [← hq]
  | wait _ _ ih => exact ih
  | arrive _ hr ih =>
    obtain ⟨k, calls, hc, hs⟩ := ih
    refine ⟨k, calls, hc.append Log.arrivals_silent, ?_⟩
    rw [Stage.Schedules, hr.status, hr.scheduler]
    exact hs
  | drop _ _ _ ih =>
    obtain ⟨k, calls, hc, hs⟩ := ih
    exact ⟨k, calls ++ [], hc.cons .taken, (List.append_nil calls).symm ▸ hs⟩
  | @commit _ _ _ _ _ _ _ _ shell vs _ hp he hcm _ ih =>
    subst he
    obtain ⟨k, calls, hc, hs⟩ := ih
    refine ⟨k, _, (hc.append (hp.silent vs)).cons .committed, ?_⟩
    change shell.scheduler = _
    rw [(Shell.performAll_ok hcm).scheduler, hs.of_plans hp, Scheduler.replay_append,
      Planned.replay_calls]
  | @refuse _ _ _ _ _ _ _ _ _ vs _ _ hp he hcm _ ih =>
    subst he
    obtain ⟨k, calls, hc, hs⟩ := ih
    obtain ⟨done, a, rest, s₁, hl, hd, _, hposted⟩ := Shell.performAll_failed hcm
    refine ⟨k, _, (hc.append (hp.silent vs)).cons (.refused ⟨a :: rest, hl.symm⟩), .inl ?_⟩
    rw [hposted.scheduler, hd.scheduler, hs.of_plans hp, Scheduler.replay_append,
      Planned.replay_calls]
  | skip _ _ _ _ ih => exact ih
  | rest _ ih =>
    obtain ⟨k, calls, hc, hs⟩ := ih
    exact ⟨k, calls, hc, .inl hs⟩
  | @deliver _ _ _ shell p rest _ hr hq hd ih =>
    obtain ⟨k, calls, hc, hs⟩ := ih
    have hs := hs.of_ne_stopped (by simp [hr])
    refine ⟨k, _, hc.cons (.delivered (hs ▸ hq) hd), .inl ?_⟩
    rw [Scheduler.replay_append, ← hs]
    change _ = (shell.scheduler.call _).2
    rw [Scheduler.call_popDue _ hq, if_pos hd]
  | @resume _ _ _ shell _ _ _ _ _ vs _ _ hres _ he hp _ ih =>
    subst he
    obtain ⟨k, calls, hc, hs⟩ := ih
    obtain ⟨hn, _⟩ := resumption_ok hres
    have hs : shell.scheduler = _ := hs.of_ne_stopped fun h => by cases hn.symm.trans h
    refine ⟨k, _, (hc.append Log.arrivals_silent).cons .resumed, .inl ?_⟩
    rw [Shell.performEach_scheduler hp, hs, Scheduler.replay_append, Planned.replay_calls]
  | halt _ hh ih =>
    obtain ⟨k, calls, hc, _⟩ := ih
    refine ⟨k, _, (hc.append Log.arrivals_silent).cons .halted, .inr ⟨hh.status, hh.queue, ?_⟩⟩
    rw [Scheduler.replay_append]
    exact List.filter_eq_nil_iff.mpr fun _ _ => by simp

end Course

namespace Interpreter

-- For every sequence of calls, a scheduler is a list of the events that wait, in the order in which
-- they were scheduled. Hence delayed events are delivered punctually, whatever is done with an
-- interpreter, as long as time does not go backwards.
theorem Runs.punctual {i : Interpreter C S A} (h : Runs m now i) :
    (∀ k calls answers agenda, Agenda.Plays [] calls answers agenda ↔
      answers = Scheduler.answers { lastTicket := k } calls ∧
        agenda = (Scheduler.replay { lastTicket := k } calls).agenda) ∧
    (∃ log, Course m now log (.resting i.state i.shell)) ∧
    ∀ log, Course m now log (.resting i.state i.shell) → ∃ k calls, log.Calls k calls ∧
      (Scheduler.replay { lastTicket := k } calls).queue = i.shell.scheduler.queue ∧
      log.Punctual k calls := by
  refine ⟨fun k _ _ _ => Scheduler.plays_iff k, h.course.right, fun log hl => ?_⟩
  obtain ⟨k, calls, hc, hs⟩ := hl.calls
  exact ⟨k, calls, hc, hs.queue.symm, hc.punctual_until hl.until_now⟩

-- The chime is the only event that was scheduled, and it still waits.
theorem Runs.punctual_house : ∃ (s : Shell Unit (Actor (Child Unit 0))) (log : Log Unit) (k : Nat)
    (calls : List Call), Runs Course.houseMachine .zero
        ⟨Course.houseMachine, .plain (.ofList [0, 4]), s⟩ ∧
      Course Course.houseMachine .zero log (.resting (.plain (.ofList [0, 4])) s) ∧
      log.Calls k calls ∧
      (Scheduler.replay { lastTicket := k } calls).queue = [Course.chime] ∧
      log.Punctual k calls := by
  obtain ⟨s, hruns, _, _, hq⟩ := Course.house_left
  obtain ⟨_, ⟨log, hlog⟩, hall⟩ := hruns.punctual
  obtain ⟨k, calls, hc, hqueue, hp⟩ := hall log hlog
  exact ⟨s, log, k, calls, hruns, hlog, hc, hqueue.trans hq, hp⟩

end Interpreter

end Course

end Statechart
