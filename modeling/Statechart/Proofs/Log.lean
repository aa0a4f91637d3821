import Mathlib.Data.List.Basic
import Mathlib.Data.List.Infix
import Mathlib.Data.List.Pairwise
import Statechart.Interpreter.Basic
import Statechart.Interpreter.Scheduler
import Statechart.Microstep

-- All that happens to an interpreter, in order and with its time.

namespace Statechart

inductive Happening (C : Type)
  -- an event is put into the mailbox
  | arrived (v : Envelope)
  -- a delayed event is due, while `waiting` is in the mailbox
  | delivered (p : Pending) (waiting : List Envelope)
  -- an event is taken out of the mailbox
  | taken (v : Envelope)
  -- a microstep is carried out; there are no transitions if it is the first one
  | committed (e : Event) (us : List Transition) (m : Microstep C)
  -- a microstep is carried out up to an action that fails
  | refused (e : Event) (us : List Transition) (m : Microstep C)
  | resumed (c : Configuration) (actions : List Planned)
  | halted

namespace Happening

variable {C : Type}

-- What is carried out, if nothing fails.
def actions : Happening C → List Planned
  | committed _ _ m | refused _ _ m => m.actions
  | resumed _ actions => actions
  | _ => []

def raised : Happening C → List Event
  | committed _ _ m => m.raised
  | _ => []

-- What is taken, be it in vain.
def transitions : Happening C → List Transition
  | committed _ us _ | refused _ us _ => us
  | _ => []

-- The nodes that become active, be they active before or not.
def entered : Happening C → List NodeIndex
  | committed _ _ m => m.entered
  | resumed c _ => c.toList
  | _ => []

def exited : Happening C → List NodeIndex
  | committed _ _ m => m.exited
  | _ => []

-- Leaves alone whether the node is active.
def Spares (n : NodeIndex) (h : Happening C) : Prop := n ∉ h.entered ∧ n ∉ h.exited

theorem Spares.of_nil {n : NodeIndex} {h : Happening C} (he : h.entered = [])
    (hx : h.exited = []) : h.Spares n := by
  simp [Spares, he, hx]

-- Is neither a delivery nor a microstep.
structure Idle (h : Happening C) : Prop where
  transitions : h.transitions = []
  not_delivered p waiting : h ≠ .delivered p waiting

end Happening

-- What has happened when, the latest first.
abbrev Log (C : Type) := List (Duration × Happening C)

namespace Log

variable {C : Type} {n : NodeIndex} {log log' : Log C} {now t : Duration} {h : Happening C}

def arrivals (now : Duration) (vs : List Envelope) : Log C :=
  (vs.map fun v => (now, .arrived v)).reverse

-- When the node was entered, if it was not exited since.
def activeSince? (n : NodeIndex) : Log C → Option Duration
  | [] => none
  | (t, h) :: log =>
    if n ∈ h.entered then some t else if n ∈ h.exited then none else activeSince? n log

theorem activeSince?_cons : activeSince? n ((t, h) :: log) =
    if n ∈ h.entered then some t else if n ∈ h.exited then none else activeSince? n log := rfl

theorem activeSince?_of_spared (h : ∀ x ∈ log, x.2.Spares n) : activeSince? n log = none := by
  induction log with
  | nil => rfl
  | cons x rest ih =>
    have ⟨hx, hrest⟩ := List.forall_mem_cons.mp h
    rw [activeSince?_cons, if_neg hx.left, if_neg hx.right, ih hrest]

theorem activeSince?_append (h : ∀ x ∈ log', x.2.Spares n) :
    activeSince? n (log' ++ log) = activeSince? n log := by
  induction log' with
  | nil => rfl
  | cons x rest ih =>
    have ⟨hx, hrest⟩ := List.forall_mem_cons.mp h
    rw [List.cons_append, activeSince?_cons, if_neg hx.left, if_neg hx.right, ih hrest]

-- A node was last entered before `log'`, and not exited in it, or else it was entered in it.
theorem activeSince?_append_eq_some (h : activeSince? n (log' ++ log) = some t) :
    (∀ x ∈ log', x.2.Spares n) ∧ activeSince? n log = some t ∨
      ∃ x ∈ log', x.1 = t ∧ n ∈ x.2.entered := by
  induction log' with
  | nil => exact .inl ⟨by simp, h⟩
  | cons x rest ih =>
    rw [List.cons_append, activeSince?_cons] at h
    split at h
    case isTrue hn => exact .inr ⟨x, List.mem_cons_self, Option.some.inj h, hn⟩
    case isFalse hn =>
      split at h
      case isTrue => contradiction
      case isFalse hx =>
        cases (ih h)
        case inl h => exact .inl ⟨List.forall_mem_cons.mpr ⟨⟨hn, hx⟩, h.left⟩, h.right⟩
        case inr h =>
          have ⟨y, hy, h⟩ := h
          exact .inr ⟨y, List.mem_cons_of_mem _ hy, h⟩

theorem suffix_cons_append (x : Duration × Happening C) : log <:+ x :: (log' ++ log) :=
  ⟨x :: log', rfl⟩

theorem suffix_append_cases {x : Duration × Happening C} {before : Log C}
    (h : x :: before <:+ log' ++ log) : x ∈ log' ∨ x :: before <:+ log := by
  have ⟨since, h⟩ := h
  rcases List.append_eq_append_iff.mp h with ⟨l, hl, h⟩ | ⟨l, _, h⟩
  · cases l with
    | nil => exact .inr ⟨[], by simpa using h⟩
    | cons y l => exact .inl (by simp [hl, (List.cons.inj h).left])
  · exact .inr ⟨l, h.symm⟩

-- What has happened was added last, was added with that, or had happened before.
theorem suffix_cons_cases {x y : Duration × Happening C} {before : Log C}
    (h : x :: before <:+ y :: (log' ++ log)) :
    x = y ∧ before = log' ++ log ∨ x ∈ log' ∨ x :: before <:+ log := by
  cases (List.suffix_cons_iff.mp h)
  case inl h =>
    obtain ⟨rfl, rfl⟩ := List.cons.inj h
    exact .inl ⟨rfl, rfl⟩
  case inr h => exact .inr (suffix_append_cases h)

-- Nothing happens later than `now`, or before what has happened.
structure Until (now : Duration) (log : Log C) : Prop where
  ordered : log.Pairwise fun x y => y.1 ≤ x.1
  past {x : Duration × Happening C} : x ∈ log → x.1 ≤ now

theorem Until.of_suffix {x : Happening C} {before : Log C} (h : log.Until now)
    (hl : (t, x) :: before <:+ log) : before.Until t ∧ t ≤ now := by
  have ⟨hp, hb⟩ := List.pairwise_cons.mp (h.ordered.sublist hl.sublist)
  exact ⟨⟨hb, fun hy => hp _ hy⟩, h.past (hl.subset List.mem_cons_self)⟩

theorem Until.append (log' : Log C) (h : log.Until now) (hl : ∀ x ∈ log', x.1 = now) :
    (log' ++ log).Until now where
  ordered := by
    refine List.pairwise_append.mpr ⟨?_, h.ordered, fun x hx y hy => hl x hx ▸ h.past hy⟩
    exact List.pairwise_of_forall_mem_list fun x hx y hy =>
      Nat.le_of_eq (congrArg Duration.nanos ((hl y hy).trans (hl x hx).symm))
  past {x} hx := by
    cases (List.mem_append.mp hx)
    case inl hx => exact Nat.le_of_eq (congrArg Duration.nanos (hl x hx))
    case inr hx => exact h.past hx

@[simp] theorem mem_arrivals {x : Duration × Happening C} {vs : List Envelope} :
    x ∈ arrivals now vs ↔ ∃ v ∈ vs, (now, .arrived v) = x := by
  simp [arrivals]

theorem arrivals_idle {vs : List Envelope} : ∀ x ∈ arrivals (C := C) now vs, x.2.Idle := by
  intro x hx
  have ⟨_, _, hx⟩ := mem_arrivals.mp hx
  exact hx ▸ ⟨rfl, nofun⟩

theorem arrivals_spare {vs : List Envelope} : ∀ x ∈ arrivals (C := C) now vs, x.2.Spares n := by
  intro x hx
  have ⟨_, _, hx⟩ := mem_arrivals.mp hx
  exact hx ▸ Happening.Spares.of_nil rfl rfl

end Log

end Statechart
