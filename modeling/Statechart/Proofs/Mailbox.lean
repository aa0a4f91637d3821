import Statechart.Proofs.Session

-- The mailbox of an interpreter is a queue: what is posted is taken in the same order, by one
-- macrostep each or because its actor is gone, until the interpreter halts.

namespace Statechart

-- What happens to the events of a mailbox.
inductive Transfer
  | posted (vs : List Envelope)
  | processed (v : Envelope)
  | dropped (v : Envelope)
  deriving DecidableEq, Inhabited

namespace Transfer

def posts : Transfer → List Envelope
  | posted vs => vs
  | _ => []

def takes : Transfer → List Envelope
  | processed v | dropped v => [v]
  | posted _ => []

end Transfer

namespace Interpreter

variable {C S A : Type} [ActorModel C S A]

-- One thing that is done with an interpreter, which is over before the next one begins, and what
-- becomes of the mailbox meanwhile. For an event that is processed this is one macrostep.
inductive Serve : Interpreter C S A → List Transfer → Interpreter C S A → Prop
  | receive {i vs s} : i.shell.Receives vs s → i.shell.actors.Evolves C s.actors →
      Serve i [.posted vs] { i with shell := s }
  | start {i env j vs} : i.shell.status = .notStarted →
      (macrostep env { i with shell.status := .running } .start).outcome = .ok j →
      j.shell.mailbox = i.shell.mailbox ++ vs → Serve i [.posted vs] j
  -- an event from outside is passed on before
  | process {i env v rest s j vs} : i.shell.status = .running → i.shell.mailbox = v :: rest →
      (∀ id, v.origin = some id → i.shell.actors.contains id = true) →
      (if v.origin = none then Shell.forward env { i.shell with mailbox := rest } v.event
        else pure { i.shell with mailbox := rest }).outcome = .ok s →
      (macrostep env { i with shell := s } (.event v.event)).outcome = .ok j →
      j.shell.mailbox = rest ++ vs → Serve i [.processed v, .posted vs] j
  | drop {i v rest id} : i.shell.status = .running → i.shell.mailbox = v :: rest →
      v.origin = some id → i.shell.actors.contains id = false →
      Serve i [.dropped v] { i with shell.mailbox := rest }
  -- a delayed event is due
  | deliver {i env p rest s vs} : i.shell.status = .running →
      i.shell.scheduler.queue = p :: rest → p.deadline ≤ env.now →
      (Shell.deliver env { i.shell with scheduler.queue := rest } p.target p.event).outcome =
        .ok s →
      s.mailbox = i.shell.mailbox ++ vs → Serve i [.posted vs] { i with shell := s }
  | stop {i env j vs} : (i.stop env).outcome = .ok j →
      j.shell.mailbox = i.shell.mailbox ++ vs → Serve i [.posted vs] j
  | resume {i c x actions env j vs} : i.resumption c = .ok (x, actions) → x.done = true →
      (halt env { i with
        state := x
        shell.status := .running
        shell.lastEvent := some .init }).outcome = .ok j →
      j.shell.mailbox = i.shell.mailbox ++ vs → Serve i [.posted vs] j
  | resumeEach {i c x actions env s vs} : i.resumption c = .ok (x, actions) → x.done = false →
      (Shell.performEach env i.machine.registry x.context .init
        { i.shell with status := .running, lastEvent := some .init } actions).outcome = .ok s →
      s.mailbox = i.shell.mailbox ++ vs → Serve i [.posted vs] { i with state := x, shell := s }

-- One thing after the other.
inductive Serves : Interpreter C S A → List Transfer → Interpreter C S A → Prop
  | refl {i} : Serves i [] i
  | step {i transfers j transfers' k} : Serves i transfers j → Serve j transfers' k →
      Serves i (transfers ++ transfers') k

variable {i j k : Interpreter C S A} {env : Env} {transfers transfers' : List Transfer}
  {v : Envelope} {s : Shell C A}

-- A macrostep takes nothing out of the mailbox, and goes on unless it halts.
theorem macrostep_keeps {trigger : Trigger} (h : (i.macrostep env trigger).outcome = .ok j) :
    (∃ vs, j.shell.mailbox = i.shell.mailbox ++ vs) ∧
      (j.shell.status = i.shell.status ∨ j.shell.status = .stopped) := by
  obtain ⟨p, hp, _⟩ := Turn.bind_eq_ok.mp h
  have hstep {s s' : Shell C A} {m : Microstep C} {e : Event} {failure : Option ExecutionError}
      (hs : s.status = i.shell.status ∧ ∃ vs, s.mailbox = i.shell.mailbox ++ vs)
      (hc : (commit env i.machine.registry s m e).outcome = .ok (s', failure)) :
      s'.status = i.shell.status ∧ ∃ vs, s'.mailbox = i.shell.mailbox ++ vs := by
    have ho := Shell.performAll_obeys hc
    exact ⟨ho.status.trans hs.left, Shell.exists_append_trans hs.right ho.mailbox⟩
  obtain ⟨hst, hm⟩ := Macrostep.shell_of_run
    (I := fun s => s.status = i.shell.status ∧ ∃ vs, s.mailbox = i.shell.mailbox ++ vs)
    (fun _ _ _ _ => hstep) (fun _ _ _ _ _ => hstep) ⟨rfl, [], (List.append_nil _).symm⟩ hp
  rcases macrostep_cases hp h with ⟨_, s, rfl, hn⟩ | ⟨s, rfl, hs⟩
  · exact ⟨Shell.exists_append_trans hm hn.mailbox, .inl (hn.status.trans hst)⟩
  · exact ⟨Shell.exists_append_trans hm hs.mailbox, .inr hs.status⟩

-- Before it is processed, an event from outside may make actors post something.
theorem forwarded {s s' : Shell C A} {e : Event} (h : (if v.origin = none then
    Shell.forward env s e else pure s).outcome = .ok s') :
    ∃ vs, s'.status = s.status ∧ s'.mailbox = s.mailbox ++ vs := by
  split at h
  · obtain ⟨vs, hr⟩ := (Shell.eachActor_ok h).left.receives
    exact ⟨vs, hr.status, hr.mailbox⟩
  · cases h
    exact ⟨[], rfl, (List.append_nil _).symm⟩

namespace Serve

-- What was there, and after it what was posted, is what was taken, and after it what is there.
theorem mailbox (h : Serve i transfers j) : i.shell.mailbox ++ transfers.flatMap Transfer.posts =
    transfers.flatMap Transfer.takes ++ j.shell.mailbox := by
  cases h with
  | receive hr => simp [Transfer.posts, Transfer.takes, hr.mailbox]
  | process _ hm _ _ _ hj => simp [Transfer.posts, Transfer.takes, hm, hj]
  | drop _ hm => simp [Transfer.posts, Transfer.takes, hm]
  | start _ _ hj | stop _ hj | resume _ _ _ hj | resumeEach _ _ _ hj | deliver _ _ _ _ hj =>
    simp [Transfer.posts, Transfer.takes, hj]

theorem begun (h : Serve i transfers j) (hs : i.shell.status ≠ .notStarted) :
    j.shell.status ≠ .notStarted := by
  cases h with
  | receive hr => exact hr.status ▸ hs
  | stop h => simp [stopped_of_stop h]
  | start hn => exact absurd hn hs
  | process hr _ _ hf hj =>
    obtain ⟨_, hst, _⟩ := forwarded hf
    obtain ⟨_, hs | hs⟩ := macrostep_keeps hj
    · simp [hs, hst, hr]
    · simp [hs]
  | drop => exact hs
  | deliver hr _ _ hd =>
    obtain ⟨_, hrec⟩ := (Shell.deliver_ok hd).left.receives
    exact hrec.status ▸ hs
  | resume hc | resumeEach hc => exact absurd (Course.resumption_ok hc).left hs

end Serve

namespace Serves

theorem single (h : Serve i transfers j) : Serves i transfers j := .step .refl h

theorem trans (h : Serves i transfers j) (h' : Serves j transfers' k) :
    Serves i (transfers ++ transfers') k := by
  induction h' with
  | refl => exact (List.append_nil transfers).symm ▸ h
  | step _ hk ih => exact List.append_assoc .. ▸ ih.step hk

theorem mailbox (h : Serves i transfers j) : i.shell.mailbox ++ transfers.flatMap Transfer.posts =
    transfers.flatMap Transfer.takes ++ j.shell.mailbox := by
  induction h with
  | refl => exact List.append_nil _
  | step _ hk ih =>
    rw [List.flatMap_append, ← List.append_assoc, ih, List.append_assoc, hk.mailbox,
      List.flatMap_append, List.append_assoc]

theorem begun (h : Serves i transfers j) (hs : i.shell.status ≠ .notStarted) :
    j.shell.status ≠ .notStarted := by
  induction h with
  | refl => exact hs
  | step _ hk ih => exact hk.begun ih

-- The event that is first in the mailbox is processed or dropped.
theorem process (hr : i.shell.status = .running) (h : (i.process env v).outcome = .ok j) :
    ∃ transfers, Serves { i with shell.mailbox := v :: i.shell.mailbox } transfers j := by
  have hmacrostep {s : Shell C A} (hv : ∀ id, v.origin = some id →
      i.shell.actors.contains id = true) (hf : (if v.origin = none then
        Shell.forward env i.shell v.event else pure i.shell).outcome = .ok s)
      (hj : (macrostep env { i with shell := s } (.event v.event)).outcome = .ok j) :
      ∃ transfers, Serves { i with shell.mailbox := v :: i.shell.mailbox } transfers j := by
    obtain ⟨vs, _, hs⟩ := forwarded hf
    obtain ⟨⟨vs', hm⟩, _⟩ := macrostep_keeps hj
    have hm : j.shell.mailbox = i.shell.mailbox ++ (vs ++ vs') := by rw [hm, hs, List.append_assoc]
    exact ⟨_, single (.process hr rfl hv hf hj hm)⟩
  rw [Interpreter.process] at h
  split at h
  case h_1 id hv =>
    split at h
    case isTrue hc =>
      refine hmacrostep (s := i.shell) (fun id' hid => ?_) (by simp [hv]) h
      obtain rfl := Option.some.inj (hv.symm.trans hid)
      exact hc
    case isFalse hc =>
      cases h
      exact ⟨_, single (.drop hr rfl hv (by simpa using hc))⟩
  case h_2 hv =>
    obtain ⟨s, hs, h⟩ := Turn.bind_eq_ok.mp h
    exact hmacrostep (s := s) (by simp [hv]) (by simpa [hv] using hs) h

end Serves

end Interpreter

end Statechart
