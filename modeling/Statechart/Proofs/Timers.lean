import Statechart.Proofs.Build
import Statechart.Proofs.Course

-- How long the node of a timer has been active when its event is delivered, and when it is taken.

namespace Statechart

variable {C S A : Type} [ActorModel C S A] {m : Machine C S} {now : Duration} {log log' : Log C}
  {stage stage' : Stage C A} {n : NodeIndex} {name : String} {d : Duration}

namespace Planned

def timer (n : NodeIndex) (name : String) (d : Duration) : Planned :=
  .send { name := name } .self (some d) (some name) n

def sent? : Planned → Option Event
  | send e .. => some e
  | _ => none

theorem scheduled?_timer {e : Scheduled} (h : (timer n name d).scheduled? now = some e) :
    e.owner = n ∧ e.id = some name ∧ e.deadline.nanos = now.nanos + d.nanos := by
  simp only [timer, scheduled?, Duration.add?, Option.map_eq_some_iff] at h
  obtain ⟨deadline, hd, he⟩ := h
  split at hd
  case isTrue =>
    cases hd
    cases he
    exact ⟨rfl, rfl, rfl⟩
  case isFalse => contradiction

-- A timer that is set replaces the one of its name that is pending for its node, and no other.
theorem endsTimer_timer_iff {p : Pending} (h : (timer n name d).overflows now = false) :
    (timer n name d).endsTimer now p = true ↔ p.owner = n ∧ p.id = some name := by
  simp only [timer, overflows, Option.isNone_eq_false_iff] at h
  obtain ⟨deadline, hd⟩ := Option.isSome_iff_exists.mp h
  simp [timer, endsTimer, scheduled?, hd, Scheduler.sameTimer, and_comm]

theorem sent?_of_scheduled? {a : Planned} {e : Scheduled} (h : a.scheduled? now = some e) :
    a.sent? = some e.event := by
  cases a with
  | send event target delay id owner =>
    cases delay with
    | none => contradiction
    | some delay =>
      have ⟨_, _, h⟩ := Option.map_eq_some_iff.mp h
      cases h
      rfl
  | _ => contradiction

end Planned

namespace Log

-- Nothing but a timer of `n` for `d` sends events named `name`.
structure OnlyTimer (n : NodeIndex) (name : String) (d : Duration) (log : Log C) : Prop where
  arrived {t : Duration} {v : Envelope} : (t, .arrived v) ∈ log → v.event.name ≠ name
  raised {x : Duration × Happening C} {e : Event} : x ∈ log → e ∈ x.2.raised → e.name ≠ name
  sent {x : Duration × Happening C} {a : Planned} {e : Event} : x ∈ log → a ∈ x.2.actions →
    a.sent? = some e → e.name = name → a = .timer n name d

theorem OnlyTimer.mono (h : log.OnlyTimer n name d) (hl : log' ⊆ log) :
    log'.OnlyTimer n name d where
  arrived hv := h.arrived (hl hv)
  raised hx := h.raised (hl hx)
  sent hx := h.sent (hl hx)

theorem OnlyTimer.nil : Log.OnlyTimer n name d ([] : Log C) := ⟨nofun, nofun, nofun⟩

theorem OnlyTimer.cons {t : Duration} {h : Happening C} (hl : log.OnlyTimer n name d)
    (harr : ∀ v, h = .arrived v → v.event.name ≠ name) (hr : ∀ e ∈ h.raised, e.name ≠ name)
    (hs : ∀ a ∈ h.actions, ∀ e, a.sent? = some e → e.name = name → a = .timer n name d) :
    Log.OnlyTimer n name d ((t, h) :: log) where
  arrived hv := by
    cases hv with
    | head => exact harr _ rfl
    | tail _ hv => exact hl.arrived hv
  raised hx := by
    cases hx with
    | head => exact hr _
    | tail _ hx => exact hl.raised hx
  sent hx ha := by
    cases hx with
    | head => exact hs _ ha _
    | tail _ hx => exact hl.sent hx ha

-- The timer `p` was set, and since then the node was neither entered nor exited.
inductive Armed (n : NodeIndex) (name : String) (d : Duration) (p : Pending) : Log C → Prop
  | set {t h log} : .timer n name d ∈ h.actions →
      (Planned.timer n name d).scheduled? t = some p.toScheduled → Armed n name d p ((t, h) :: log)
  | keep {x log} : Armed n name d p log → x.2.Spares n → Armed n name d p (x :: log)

namespace Armed

variable {p : Pending}

theorem scheduled (h : log.Armed n name d p) :
    ∃ t, (Planned.timer n name d).scheduled? t = some p.toScheduled := by
  induction h with
  | set _ hs => exact ⟨_, hs⟩
  | keep _ _ ih => exact ih

theorem append (h : log.Armed n name d p) (hl : ∀ x ∈ log', x.2.Spares n) :
    (log' ++ log).Armed n name d p := by
  induction log' with
  | nil => exact h
  | cons x rest ih =>
    have ⟨hx, hrest⟩ := List.forall_mem_cons.mp hl
    exact .keep (ih hrest) hx

-- The node was entered when the timer was set, or before.
theorem entered_before {t : Duration} (h : log.Armed n name d p) (hl : log.Until now)
    (ht : log.activeSince? n = some t) : t.nanos + d.nanos ≤ p.deadline.nanos := by
  induction h with
  | @set t' x log _ hs =>
    have ⟨_, _, hdl⟩ := Planned.scheduled?_timer hs
    have hle : t ≤ t' := by
      rw [← List.append_nil (_ :: log)] at ht
      rcases activeSince?_append_eq_some ht with ⟨_, h⟩ | ⟨y, hy, rfl, _⟩
      · contradiction
      · cases hy with
        | head => exact Nat.le_refl _
        | tail _ hy => exact (List.pairwise_cons.mp hl.ordered).left y hy
    have : t.nanos ≤ t'.nanos := hle
    omega
  | keep _ hx ih =>
    rw [activeSince?_cons, if_neg hx.left, if_neg hx.right] at ht
    exact ih ⟨hl.ordered.of_cons, fun hx => hl.past (List.mem_cons_of_mem _ hx)⟩ ht

-- Unless the node was entered again after the timer was due, it was active when the timer was set.
theorem since_delivery {since : Log C} {t t₀ : Duration} {waiting : List Envelope}
    (h : log.Armed n name d p) (hl : Log.Until now (since ++ (t₀, .delivered p waiting) :: log))
    (ht : Log.activeSince? n (since ++ (t₀, .delivered p waiting) :: log) = some t) :
    (∀ x ∈ since, x.2.Spares n) ∧ t.nanos + d.nanos ≤ p.deadline.nanos ∨
      (∃ x ∈ since, ¬ x.2.Spares n) ∧ t₀ ≤ t := by
  rcases activeSince?_append_eq_some ht with ⟨hs, ht⟩ | ⟨x, hx, rfl, hn⟩
  case inl =>
    have ⟨hl, _⟩ := hl.of_suffix (List.suffix_append ..)
    exact .inl ⟨hs, h.entered_before hl ht⟩
  case inr =>
    refine .inr ⟨⟨x, hx, fun hs => hs.left hn⟩, ?_⟩
    exact (List.pairwise_append.mp hl.ordered).right.right x hx _ List.mem_cons_self

end Armed

theorem OnlyTimer.armed {x : Happening C} {a : Planned} {p : Pending}
    (h : Log.OnlyTimer n name d ((now, x) :: log)) (ha : a ∈ x.actions)
    (hs : a.scheduled? now = some p.toScheduled) (he : p.event.name = name) :
    Log.Armed n name d p ((now, x) :: log) := by
  obtain rfl := h.sent List.mem_cons_self ha (Planned.sent?_of_scheduled? hs) he
  exact .set ha hs

end Log

-- A node is active exactly since it was entered. A timer of it that is pending was set since then.
structure Timed (n : NodeIndex) (name : String) (d : Duration) (log : Log C)
    (stage : Stage C A) : Prop where
  entered : n ∈ stage.state.configuration ↔ (log.activeSince? n).isSome = true
  pending {p : Pending} : p ∈ stage.shell.scheduler.queue → p.event.name = name →
    log.Armed n name d p

namespace Timed

-- Where nothing is entered, exited or scheduled.
theorem spared (log' : Log C) (h : Timed n name d log stage) (hl : ∀ x ∈ log', x.2.Spares n)
    (hc : stage'.state.configuration = stage.state.configuration)
    (hq : stage'.shell.scheduler.queue ⊆ stage.shell.scheduler.queue) :
    Timed n name d (log' ++ log) stage' where
  entered := by rw [Log.activeSince?_append hl, hc, h.entered]
  pending hp he := (h.pending (hq hp) he).append hl

section Steps

variable {env : Env} {x : Happening C} {s : Shell C A}

-- Where timers may be set, but nothing is entered or exited.
theorem obeyed (h : Timed n name d log stage)
    (hl : ∀ y ∈ (env.now, x) :: log', y.2.Spares n)
    (ho : Log.OnlyTimer n name d ((env.now, x) :: (log' ++ log)))
    (hc : stage'.state.configuration = stage.state.configuration)
    (hs : Shell.Obeys env x.actions s stage'.shell)
    (hq : s.scheduler.queue ⊆ stage.shell.scheduler.queue) :
    Timed n name d ((env.now, x) :: (log' ++ log)) stage' where
  entered := by rw [← List.cons_append, Log.activeSince?_append hl, hc, h.entered]
  pending {p} hp he := by
    cases (hs.queue p hp)
    case inl hp => exact (h.pending (hq hp) he).append hl
    case inr hn =>
      have ⟨a, ha, hsched⟩ := hn
      exact ho.armed ha hsched he

-- Where nothing was entered before, and everything is now.
theorem resumed {c : Configuration} {actions : List Planned} (hl : ∀ y ∈ log, y.2.Spares n)
    (ho : Log.OnlyTimer n name d ((env.now, .resumed c actions) :: log : Log C))
    (hc : stage.state.configuration = c) (hs : Shell.Obeys env actions s stage.shell)
    (hq : s.scheduler.queue = []) :
    Timed n name d ((env.now, .resumed c actions) :: log) stage where
  entered := by
    rw [Log.activeSince?_cons, Log.activeSince?_of_spared hl, hc, SortedSet.mem_iff]
    by_cases hn : n ∈ c.toList <;> simp [Happening.entered, Happening.exited, hn]
  pending {p} hp he := by
    cases (hs.queue p hp)
    case inl hp => simp [hq] at hp
    case inr hn =>
      have ⟨a, ha, hsched⟩ := hn
      exact ho.armed ha hsched he

-- Exiting the node cancels its timer, and entering it sets the timer anew.
theorem committed {hap : List (Happening C)} {q : Progress (Shell C A) C} {us : List Transition}
    {step : Microstep C} (wf : m.tree.WellFormed)
    (hentry : .send { event := some { name := name }, delay := some (.fixed d), id := some name } ∈
      (m.tree.node n).entry)
    (h : Timed n name d log stage) (hcourse : Course m env.now log stage)
    (hp : Plans m stage hap q us step)
    (hc : (Interpreter.commit env m.registry q.shell step q.current).outcome = .ok (s, none))
    (hl : ∀ x ∈ log', x.2.Spares n)
    (ho : Log.OnlyTimer n name d
      ((env.now, .committed q.current us step) :: (log' ++ log) : Log C)) :
    Timed n name d ((env.now, .committed q.current us step) :: (log' ++ log))
      (.stepping (q.accept s step)) where
  entered := by
    change n ∈ step.configuration ↔ _
    rw [hcourse.mem_configuration wf hp, Log.activeSince?_cons, Log.activeSince?_append hl,
      h.entered]
    by_cases hn : n ∈ step.entered <;> by_cases hx : n ∈ step.exited <;>
      simp [Happening.entered, Happening.exited, hn, hx]
  pending {p} hq he := by
    have hall := Shell.performAll_ok hc
    change p ∈ s.scheduler.queue at hq
    rw [hall.scheduler, hp.scheduler, Scheduler.mem_afterAll] at hq
    cases hq
    case inl hold =>
      obtain ⟨hold, hends⟩ := hold
      have harmed := h.pending hold he
      obtain ⟨_, hsched⟩ := harmed.scheduled
      obtain ⟨hown, hid, _⟩ := Planned.scheduled?_timer hsched
      refine .keep (harmed.append hl) ⟨fun hn => ?_, fun hx => ?_⟩
      case refine_1 =>
        have ht := hp.mem_actions hentry rfl hn
        have hreplaced := (Planned.endsTimer_timer_iff (hall.in_time _ ht)).mpr ⟨hown, hid⟩
        exact absurd ((hends _ ht).symm.trans hreplaced) Bool.false_ne_true
      case refine_2 =>
        have := hends _ (hp.mem_cancels hx)
        simp [Planned.endsTimer, hown] at this
    case inr hnew =>
      obtain ⟨before, a, later, ha, ⟨e, hs, hpe⟩, _⟩ := hnew
      subst hpe
      exact ho.armed (by simp [Happening.actions, ha]) hs he

end Steps

end Timed

namespace Course

theorem timed (wf : m.tree.WellFormed)
    (hentry : .send { event := some { name := name }, delay := some (.fixed d), id := some name } ∈
      (m.tree.node n).entry)
    (h : Course m now log stage) (ho : log.OnlyTimer n name d) : Timed n name d log stage := by
  induction h with
  | new _ _ hq _ =>
    refine ⟨by simp [Stage.state, MachineState.unstarted, Log.activeSince?], fun hp _ => ?_⟩
    simp [Stage.shell, hq] at hp
  | wait _ _ ih => exact ih ho
  | arrive _ hr ih =>
    refine (ih (ho.mono (List.subset_append_right ..))).spared _ Log.arrivals_spare rfl ?_
    rw [Stage.shell, hr.scheduler]
    exact List.Subset.refl _
  | drop _ _ _ ih =>
    exact (ih (ho.mono (List.subset_cons_self ..))).spared [_]
      (by simpa using Happening.Spares.of_nil rfl rfl) rfl (List.Subset.refl _)
  | @commit _ _ _ _ _ _ _ _ _ vs hc hp he hcm _ ih =>
    subst he
    refine (ih (ho.mono fun x hx => by simp [hx])).committed wf hentry hc hp hcm ?_ ho
    exact hp.spared vs
  | @refuse _ _ _ _ _ _ _ _ _ vs _ _ hp he hcm _ ih =>
    subst he
    refine (ih (ho.mono fun x hx => by simp [hx])).obeyed ?_ ho (by rw [← hp.state]; rfl)
      (Shell.performAll_obeys hcm) ?_
    · exact List.forall_mem_cons.mpr ⟨.of_nil rfl rfl, hp.spared vs⟩
    · rw [hp.scheduler]
      exact List.Subset.refl _
  | skip _ _ _ _ ih => exact (ih ho).spared [] (by simp) rfl (List.Subset.refl _)
  | rest _ ih => exact (ih ho).spared [] (by simp) rfl (List.Subset.refl _)
  | deliver _ hr hq hd ih =>
    refine (ih (ho.mono (List.subset_cons_self ..))).spared [_]
      (by simpa using Happening.Spares.of_nil rfl rfl) rfl ?_
    rw [Stage.shell, Stage.shell, hq]
    exact List.subset_cons_self ..
  | resume hc hr _ he hp _ _ =>
    subst he
    have ⟨hn, _⟩ := resumption_ok hr
    have ⟨_, hq, hl⟩ := hc.fresh hn
    refine Timed.resumed (List.forall_mem_append.mpr ⟨Log.arrivals_spare, fun x hx => ?_⟩) ho rfl
      (Shell.performEach_obeys hp) hq
    have ⟨v, hv⟩ := hl x hx
    exact hv ▸ .of_nil rfl rfl
  | @halt now log s shell x vs shell' _ hh ih =>
    refine (ih (ho.mono fun x hx => by simp [hx])).spared ((now, .halted) :: Log.arrivals now vs)
      ?_ rfl ?_
    · exact List.forall_mem_cons.mpr ⟨Happening.Spares.of_nil rfl rfl, Log.arrivals_spare⟩
    · rw [Stage.shell, hh.queue]
      exact List.nil_subset _

-- A timer that is delivered was due, and its node was neither entered nor exited since it was set.
theorem armed_of_delivered {t : Duration} {p : Pending} {waiting : List Envelope} {before : Log C}
    (wf : m.tree.WellFormed)
    (hentry : .send { event := some { name := name }, delay := some (.fixed d), id := some name } ∈
      (m.tree.node n).entry)
    (h : Course m now log stage) (hx : (t, .delivered p waiting) :: before <:+ log)
    (ho : before.OnlyTimer n name d) (hp : p.event.name = name) :
    Log.Armed n name d p before ∧ p.deadline ≤ t := by
  cases h.origin hx with
  | delivered hc hq hdue =>
    exact ⟨(hc.timed wf hentry ho).pending (by simp [Stage.shell, hq]) hp, hdue⟩
  | planned _ _ he => simp at he
  | idle hi => exact absurd rfl (hi.not_delivered p waiting)

end Course

end Statechart
