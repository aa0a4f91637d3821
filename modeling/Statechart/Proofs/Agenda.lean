import Mathlib.Data.List.Sort
import Statechart.Proofs.Effects

-- A scheduler is a list of the events that wait, in the order in which they were scheduled: its
-- queue, which is sorted by deadline, and its tickets only serve to find the next one.

namespace Statechart

namespace Pending

variable {p q r : Pending}

theorem isBefore_iff : p.isBefore q = true ↔ p.deadline.nanos < q.deadline.nanos ∨
    p.deadline.nanos = q.deadline.nanos ∧ p.ticket < q.ticket := by
  have hd : p.deadline = q.deadline ↔ p.deadline.nanos = q.deadline.nanos := by
    cases p.deadline
    cases q.deadline
    simp
  have hlt : p.deadline < q.deadline ↔ p.deadline.nanos < q.deadline.nanos := .rfl
  simp [isBefore, hd, hlt]

theorem isBefore_trans (h : p.isBefore q = true) (h' : q.isBefore r = true) :
    p.isBefore r = true := by
  rw [isBefore_iff] at *
  omega

theorem isBefore_of_not (h : ¬ p.isBefore q = true) (ht : p.ticket ≠ q.ticket) :
    q.isBefore p = true := by
  rw [isBefore_iff] at *
  omega

theorem isBefore_of_le (hd : p.deadline ≤ q.deadline) (ht : p.ticket < q.ticket) :
    p.isBefore q = true := by
  have hd : p.deadline.nanos ≤ q.deadline.nanos := hd
  rw [isBefore_iff]
  omega

theorem deadline_le_of_isBefore (h : p.isBefore q = true) : p.deadline ≤ q.deadline := by
  rw [isBefore_iff] at h
  change p.deadline.nanos ≤ q.deadline.nanos
  omega

theorem deadline_lt_of_isBefore (h : p.isBefore q = true) (ht : q.ticket < p.ticket) :
    p.deadline < q.deadline := by
  rw [isBefore_iff] at h
  change p.deadline.nanos < q.deadline.nanos
  omega

end Pending

-- The two are the same timer, of which only the later event, `e`, counts.
def Scheduled.replaces (e f : Scheduled) : Bool := e.id.isSome && f.id = e.id && f.owner = e.owner

namespace Scheduler

-- What a scheduler can be called for.
inductive Call
  | schedule (e : Scheduled)
  | cancelId (id : String)
  | cancelOwner (owner : NodeIndex)
  | cancelAll
  | popDue (now : Duration)
  deriving DecidableEq, Inhabited

-- What a call answers, and what it leaves.
def call (s : Scheduler) : Call → Option Scheduled × Scheduler
  | .schedule e => (none, s.schedule e)
  | .cancelId id => (none, s.cancelId id)
  | .cancelOwner owner => (none, s.cancelOwner owner)
  | .cancelAll => (none, s.cancelAll)
  | .popDue now =>
    match s.popDue? now with
    | some (e, rest) => (some e, rest)
    | none => (none, s)

-- Whether an event that waits does no longer, whenever it is due.
def Call.ends (e : Scheduled) : Call → Bool
  | schedule f => f.replaces e
  | cancelId id => e.id = some id
  | cancelOwner owner => e.owner = owner
  | cancelAll => true
  | popDue _ => false

def Call.schedules : Call → Bool
  | schedule _ => true
  | _ => false

def answers : Scheduler → List Call → List (Option Scheduled)
  | _, [] => []
  | s, c :: calls => (s.call c).1 :: answers (s.call c).2 calls

def replay (s : Scheduler) (calls : List Call) : Scheduler :=
  calls.foldl (fun s c => (s.call c).2) s

-- The events that wait, in the order in which they were scheduled.
def agenda (s : Scheduler) : List Scheduled :=
  (s.queue.insertionSort fun p q => p.ticket ≤ q.ticket).map (·.toScheduled)

end Scheduler

namespace Agenda

open Scheduler (Call)

-- What a call answers to a list of events, which are in scheduling order, and what it leaves of it.
inductive Step : List Scheduled → Call → Option Scheduled → List Scheduled → Prop
  | schedule {l e} : Step l (.schedule e) none (l.filter (fun f => !e.replaces f) ++ [e])
  | cancelId {l id} : Step l (.cancelId id) none (l.filter fun f => f.id ≠ some id)
  | cancelOwner {l owner} : Step l (.cancelOwner owner) none (l.filter fun f => f.owner ≠ owner)
  | cancelAll {l} : Step l .cancelAll none []
  -- of the events with the least deadline the first
  | popDue {before e after now} : e.deadline ≤ now → (∀ f ∈ before, e.deadline < f.deadline) →
      (∀ f ∈ after, e.deadline ≤ f.deadline) →
      Step (before ++ e :: after) (.popDue now) (some e) (before ++ after)
  | notDue {l now} : (∀ f ∈ l, now < f.deadline) → Step l (.popDue now) none l

inductive Plays : List Scheduled → List Call → List (Option Scheduled) → List Scheduled → Prop
  | nil {l} : Plays l [] [] l
  | cons {l l' l'' c calls answer answers} : Step l c answer l' → Plays l' calls answers l'' →
      Plays l (c :: calls) (answer :: answers) l''

variable {l l' l₁ : List Scheduled} {c : Call} {e e' : Scheduled} {calls : List Call}
  {answer answer' : Option Scheduled} {answers answers' : List (Option Scheduled)}

-- Only one event comes first.
theorem first_unique {before before' after after' : List Scheduled}
    (hl : before ++ e :: after = before' ++ e' :: after')
    (ha : ∀ f ∈ after, e.deadline ≤ f.deadline) (hb : ∀ f ∈ before', e'.deadline < f.deadline) :
    ∃ mid, before = before' ++ mid ∧ e' :: after' = mid ++ e :: after := by
  rcases List.append_eq_append_iff.mp hl with ⟨mid, rfl, hmid⟩ | hmid
  · cases mid with
    | nil => exact ⟨[], by simp, by simpa using hmid.symm⟩
    | cons f mid =>
      obtain ⟨rfl, rfl⟩ := List.cons.inj hmid
      have hle : e.deadline.nanos ≤ e'.deadline.nanos := ha e' (by simp)
      have hlt : e'.deadline.nanos < e.deadline.nanos := hb e (by simp)
      omega
  · exact hmid

theorem Step.unique (h : Step l c answer l') (h' : Step l c answer' l₁) :
    answer = answer' ∧ l' = l₁ := by
  cases h with
  | @popDue before e after now hd hb ha =>
    generalize hl : before ++ e :: after = l at h'
    cases h' with
    | @popDue before' e' after' _ _ hb' ha' =>
      obtain ⟨mid, rfl, hmid⟩ := first_unique hl ha hb'
      cases mid with
      | nil =>
        obtain ⟨rfl, rfl⟩ := List.cons.inj hmid
        exact ⟨rfl, by simp⟩
      | cons f mid =>
        obtain ⟨rfl, rfl⟩ := List.cons.inj hmid
        have hlt : e.deadline.nanos < e'.deadline.nanos := hb e' (by simp)
        have hle : e'.deadline.nanos ≤ e.deadline.nanos := ha' e (by simp)
        omega
    | notDue hn =>
      have hd : e.deadline.nanos ≤ now.nanos := hd
      have hn : now.nanos < e.deadline.nanos := hn e (by simp [← hl])
      omega
  | @notDue l now hn =>
    generalize hc : Call.popDue now = c at h'
    cases h' with
    | @popDue before e after now' hd =>
      cases hc
      have hd : e.deadline.nanos ≤ now.nanos := hd
      have hn : now.nanos < e.deadline.nanos := hn e (by simp)
      omega
    | notDue => exact ⟨rfl, rfl⟩
    | _ => cases hc
  | _ =>
    cases h'
    exact ⟨rfl, rfl⟩

theorem Plays.unique (h : Plays l calls answers l') (h' : Plays l calls answers' l₁) :
    answers = answers' ∧ l' = l₁ := by
  induction h generalizing answers' l₁ with
  | nil =>
    cases h'
    exact ⟨rfl, rfl⟩
  | cons hs _ ih =>
    cases h' with
    | cons hs' h' =>
      obtain ⟨rfl, rfl⟩ := hs.unique hs'
      obtain ⟨rfl, rfl⟩ := ih h'
      exact ⟨rfl, rfl⟩

end Agenda

namespace Scheduler

variable {s : Scheduler} {c : Call} {p q : Pending} {ps : List Pending} {calls : List Call}

theorem call_popDue {rest : List Pending} (now : Duration) (hq : s.queue = p :: rest) :
    s.call (.popDue now) =
      if p.deadline ≤ now then (some p.toScheduled, { s with queue := rest }) else (none, s) := by
  rw [call, popDue?, hq]
  dsimp only
  by_cases hd : p.deadline ≤ now <;> simp [hd]

theorem call_popDue_of_empty (now : Duration) (hq : s.queue = []) :
    s.call (.popDue now) = (none, s) := by
  rw [call, popDue?, hq]

-- The queue is sorted, and its events were numbered as they were scheduled.
structure Ordered (s : Scheduler) : Prop where
  sorted : s.queue.Pairwise (·.isBefore · = true)
  distinct : s.queue.Pairwise (·.ticket ≠ ·.ticket)
  numbered : ∀ p ∈ s.queue, p.ticket ≤ s.lastTicket

theorem insertPending_perm (q : List Pending) : (insertPending p q).Perm (p :: q) := by
  induction q with
  | nil => exact .refl _
  | cons x rest ih =>
    rw [insertPending]
    split
    · exact (ih.cons x).trans (.swap p x rest)
    · exact .refl _

theorem insertPending_sorted {l : List Pending} (hl : l.Pairwise (·.isBefore · = true))
    (hp : ∀ q ∈ l, q.ticket ≠ p.ticket) :
    (insertPending p l).Pairwise (·.isBefore · = true) := by
  induction l with
  | nil => exact List.pairwise_singleton ..
  | cons q rest ih =>
    obtain ⟨hq, hrest⟩ := List.pairwise_cons.mp hl
    obtain ⟨hpq, hp⟩ := List.forall_mem_cons.mp hp
    rw [insertPending]
    split
    case isTrue hlt =>
      refine List.pairwise_cons.mpr ⟨fun x hx => ?_, ih hrest hp⟩
      rcases mem_insertPending.mp hx with rfl | hx
      · exact hlt
      · exact hq x hx
    case isFalse hnot =>
      have hlt := Pending.isBefore_of_not hnot hpq
      exact List.pairwise_cons.mpr
        ⟨List.forall_mem_cons.mpr ⟨hlt, fun x hx => Pending.isBefore_trans hlt (hq x hx)⟩, hl⟩

namespace Ordered

theorem empty {k : Nat} : Ordered { lastTicket := k } := ⟨.nil, .nil, by simp⟩

theorem of_sublist {l : List Pending} (h : s.Ordered) (hl : l.Sublist s.queue) :
    Ordered { s with queue := l } :=
  ⟨h.sorted.sublist hl, h.distinct.sublist hl, fun p hp => h.numbered p (hl.subset hp)⟩

theorem scheduled (h : s.Ordered) (e : Scheduled) : (s.schedule e).Ordered := by
  have hkept := h.of_sublist (l := s.queue.filter fun p => !sameTimer e p) List.filter_sublist
  have hnew : ∀ q ∈ s.queue.filter fun p => !sameTimer e p, q.ticket ≠ s.lastTicket + 1 :=
    fun q hq => Nat.ne_of_lt (Nat.lt_succ_of_le (hkept.numbered q hq))
  refine ⟨insertPending_sorted hkept.sorted hnew, ?_, fun p hp => ?_⟩
  · refine (List.Perm.pairwise_iff (fun hxy => hxy.symm) (insertPending_perm _)).mpr ?_
    exact List.pairwise_cons.mpr ⟨fun q hq => (hnew q hq).symm, hkept.distinct⟩
  · rcases mem_insertPending.mp hp with rfl | hp
    · exact Nat.le_refl _
    · exact Nat.le_succ_of_le (hkept.numbered p hp)

theorem called (h : s.Ordered) : (s.call c).2.Ordered := by
  cases c with
  | schedule e => exact h.scheduled e
  | cancelId | cancelOwner | cancelAll => exact h.of_sublist List.filter_sublist
  | popDue now =>
    cases hq : s.queue with
    | nil =>
      rw [call_popDue_of_empty now hq]
      exact h
    | cons p rest =>
      rw [call_popDue now hq]
      split
      · exact h.of_sublist (hq ▸ List.sublist_cons_self ..)
      · exact h

theorem replayed (h : s.Ordered) (calls : List Call) : (s.replay calls).Ordered := by
  induction calls generalizing s with
  | nil => exact h
  | cons c rest ih => exact ih h.called

end Ordered

theorem pairwise_byTicket {l : List Pending} (h : l.Pairwise (·.ticket ≠ ·.ticket)) :
    (l.insertionSort fun p q => p.ticket ≤ q.ticket).Pairwise (·.ticket < ·.ticket) := by
  have : Std.Total fun p q : Pending => p.ticket ≤ q.ticket := ⟨fun _ _ => Nat.le_total ..⟩
  have : IsTrans Pending fun p q => p.ticket ≤ q.ticket := ⟨fun _ _ _ => Nat.le_trans⟩
  have hd := (List.Perm.pairwise_iff (fun hxy => hxy.symm)
    (List.perm_insertionSort (fun p q : Pending => p.ticket ≤ q.ticket) l)).mpr h
  exact (List.pairwise_insertionSort _ l).imp₂ (fun _ _ => Nat.lt_of_le_of_ne) hd

-- Whatever is in the queue in the order of its tickets is what waits.
theorem agenda_eq (hp : ps.Perm s.queue) (ho : ps.Pairwise (·.ticket < ·.ticket)) :
    s.agenda = ps.map (·.toScheduled) := by
  have hd : s.queue.Pairwise (·.ticket ≠ ·.ticket) :=
    (List.Perm.pairwise_iff (fun hxy => hxy.symm) hp).mp (ho.imp Nat.ne_of_lt)
  exact congrArg (List.map _) (List.Perm.eq_of_pairwise
    (fun _ _ _ _ h h' => absurd h' (Nat.lt_asymm h)) (pairwise_byTicket hd) ho
    ((List.perm_insertionSort _ _).trans hp.symm))

theorem Ordered.exists_agenda (h : s.Ordered) : ∃ ps : List Pending, ps.Perm s.queue ∧
    ps.Pairwise (·.ticket < ·.ticket) ∧ s.agenda = ps.map (·.toScheduled) :=
  ⟨_, List.perm_insertionSort _ _, pairwise_byTicket h.distinct, rfl⟩

-- What is cancelled is no longer waiting.
theorem Ordered.agenda_cancelWhere (h : s.Ordered) (f : Scheduled → Bool) :
    (s.cancelWhere fun p => f p.toScheduled).agenda = s.agenda.filter fun e => !f e := by
  obtain ⟨ps, hp, ho, ha⟩ := h.exists_agenda
  rw [agenda_eq (hp.filter _) (ho.filter _), ha, List.filter_map]
  rfl

theorem Ordered.agenda_schedule (h : s.Ordered) (e : Scheduled) :
    (s.schedule e).agenda = s.agenda.filter (fun f => !e.replaces f) ++ [e] := by
  obtain ⟨ps, hp, ho, ha⟩ := h.exists_agenda
  let new : Pending := { e with ticket := s.lastTicket + 1 }
  let kept := ps.filter fun p => !sameTimer e p
  have hperm : (kept ++ [new]).Perm (s.schedule e).queue :=
    (List.perm_append_singleton _ _).trans (((hp.filter _).cons new).trans
      (insertPending_perm _).symm)
  have hinOrder : (kept ++ [new]).Pairwise (·.ticket < ·.ticket) := by
    refine List.pairwise_append.mpr ⟨ho.filter _, List.pairwise_singleton .., fun p hmem q hq => ?_⟩
    obtain rfl := List.mem_singleton.mp hq
    exact Nat.lt_succ_of_le (h.numbered p (hp.mem_iff.mp (List.mem_of_mem_filter hmem)))
  rw [agenda_eq hperm hinOrder, ha, List.map_append, List.filter_map]
  rfl

-- The event that is due first comes first among those that wait.
theorem Ordered.popDue (h : s.Ordered) (now : Duration) :
    Agenda.Step s.agenda (.popDue now) (s.call (.popDue now)).1
      (s.call (.popDue now)).2.agenda := by
  cases hq : s.queue with
  | nil =>
    have ha : s.agenda = [] := by simp [agenda, hq]
    rw [call_popDue_of_empty now hq]
    exact .notDue (by simp [ha])
  | cons p rest =>
    obtain ⟨ps, hp, ho, ha⟩ := h.exists_agenda
    have hs := h.sorted
    rw [hq] at hp hs
    obtain ⟨hfirst, _⟩ := List.pairwise_cons.mp hs
    rw [call_popDue now hq]
    split
    case isTrue hd =>
      obtain ⟨before, after, rfl⟩ := List.append_of_mem (hp.mem_iff.mpr List.mem_cons_self)
      have hrest : (before ++ after).Perm rest :=
        (List.perm_cons p).mp (List.perm_middle.symm.trans hp)
      have hlater (q : Pending) (hmem : q ∈ before ++ after) : p.isBefore q = true :=
        hfirst q (hrest.mem_iff.mp hmem)
      obtain ⟨_, hafter, hbefore⟩ := List.pairwise_append.mp ho
      rw [ha, agenda_eq (s := { s with queue := rest }) hrest
        (ho.sublist (List.sublist_cons_self p after |>.append_left before)), List.map_append,
        List.map_append, List.map_cons]
      refine .popDue hd (List.forall_mem_map.mpr fun q hmem => ?_)
        (List.forall_mem_map.mpr fun q hmem => ?_)
      · exact Pending.deadline_lt_of_isBefore (hlater q (List.mem_append_left _ hmem))
          (hbefore q hmem p List.mem_cons_self)
      · exact Pending.deadline_le_of_isBefore (hlater q (List.mem_append_right _ hmem))
    case isFalse hd =>
      refine .notDue fun e he => ?_
      rw [ha] at he
      obtain ⟨q, hmem, rfl⟩ := List.mem_map.mp he
      have hle : p.deadline.nanos ≤ q.deadline.nanos := by
        rcases List.mem_cons.mp (hp.mem_iff.mp hmem) with rfl | hmem
        · exact Nat.le_refl _
        · exact Pending.deadline_le_of_isBefore (hfirst q hmem)
      exact Nat.lt_of_lt_of_le (Nat.lt_of_not_le hd) hle

theorem Ordered.step (h : s.Ordered) (c : Call) :
    Agenda.Step s.agenda c (s.call c).1 (s.call c).2.agenda := by
  cases c with
  | schedule e =>
    rw [call, h.agenda_schedule e]
    exact .schedule
  | cancelId id =>
    have ha := h.agenda_cancelWhere fun e => e.id = some id
    rw [call, cancelId, ha]
    simpa using Agenda.Step.cancelId
  | cancelOwner owner =>
    have ha := h.agenda_cancelWhere fun e => e.owner = owner
    rw [call, cancelOwner, ha]
    simpa using Agenda.Step.cancelOwner
  | cancelAll =>
    have ha := h.agenda_cancelWhere fun _ => true
    rw [call, cancelAll, ha]
    simpa using Agenda.Step.cancelAll
  | popDue now => exact h.popDue now

theorem Ordered.plays (h : s.Ordered) (calls : List Call) :
    Agenda.Plays s.agenda calls (s.answers calls) (s.replay calls).agenda := by
  induction calls generalizing s with
  | nil => exact .nil
  | cons c rest ih => exact .cons (h.step c) (ih h.called)

-- What calls come to is what they come to for the list of the events that wait, from whatever
-- number on events are numbered.
theorem plays_iff (k : Nat) {answers : List (Option Scheduled)} {l : List Scheduled} :
    Agenda.Plays [] calls answers l ↔ answers = Scheduler.answers { lastTicket := k } calls ∧
      l = (replay { lastTicket := k } calls).agenda := by
  have h := Ordered.plays (s := { lastTicket := k }) .empty calls
  exact ⟨fun h' => h'.unique h, fun ⟨ha, hl⟩ => ha ▸ hl ▸ h⟩

@[simp] theorem replay_append (s : Scheduler) (calls calls' : List Call) :
    s.replay (calls ++ calls') = (s.replay calls).replay calls' := List.foldl_append ..

theorem answers_append (s : Scheduler) (calls calls' : List Call) :
    s.answers (calls ++ calls') = s.answers calls ++ (s.replay calls).answers calls' := by
  induction calls generalizing s with
  | nil => rfl
  | cons c rest ih => exact congrArg (_ :: ·) (ih _)

-- Only a call for what is due answers anything.
theorem answers_of_not_popDue (h : ∀ now, .popDue now ∉ calls) :
    (s.answers calls).filterMap id = [] := by
  induction calls generalizing s with
  | nil => rfl
  | cons c rest ih =>
    have hrest := ih (s := (s.call c).2) fun now hn => h now (List.mem_cons_of_mem _ hn)
    cases c with
    | popDue now => exact absurd List.mem_cons_self (h now)
    | _ => exact hrest

theorem lastTicket_call : (s.call c).2.lastTicket = s.lastTicket + [c].countP Call.schedules := by
  cases c with
  | popDue now =>
    cases hq : s.queue with
    | nil => rw [call_popDue_of_empty now hq]; rfl
    | cons p rest =>
      rw [call_popDue now hq]
      split <;> rfl
  | _ => rfl

theorem lastTicket_replay :
    (s.replay calls).lastTicket = s.lastTicket + calls.countP Call.schedules := by
  induction calls generalizing s with
  | nil => rfl
  | cons c rest ih =>
    rw [← List.singleton_append, List.countP_append, ← Nat.add_assoc, ← lastTicket_call]
    exact ih

-- A call leaves an event waiting that it does not end, and adds the one that it schedules.
theorem mem_call (hp : p ∈ (s.call c).2.queue) : p ∈ s.queue ∧ c.ends p.toScheduled = false ∨
    c = .schedule p.toScheduled ∧ p.ticket = s.lastTicket + 1 := by
  cases c with
  | schedule e =>
    rcases mem_schedule.mp hp with ⟨hp, he⟩ | rfl
    · exact .inl ⟨hp, he⟩
    · exact .inr ⟨rfl, rfl⟩
  | cancelId id => exact .inl (mem_cancelWhere.mp hp)
  | cancelOwner owner => exact .inl (mem_cancelWhere.mp hp)
  | cancelAll => exact .inl (mem_cancelWhere.mp hp)
  | popDue now =>
    refine .inl ⟨?_, rfl⟩
    cases hq : s.queue with
    | nil =>
      rw [call_popDue_of_empty now hq] at hp
      exact hq ▸ hp
    | cons q rest =>
      rw [call_popDue now hq] at hp
      split at hp
      · exact List.mem_cons_of_mem _ hp
      · exact hq ▸ hp

-- Whatever waits was scheduled by a call, and no call since has ended it.
theorem mem_replay {k : Nat} (hp : p ∈ (replay { lastTicket := k } calls).queue) :
    ∃ before after, calls = before ++ .schedule p.toScheduled :: after ∧
      p.ticket = k + before.countP Call.schedules + 1 ∧
      ∀ c ∈ after, c.ends p.toScheduled = false := by
  induction calls using List.reverseRecOn with
  | nil => contradiction
  | append_singleton calls c ih =>
    rw [replay_append] at hp
    rcases mem_call hp with ⟨hp, hc⟩ | ⟨rfl, ht⟩
    · obtain ⟨before, after, rfl, ht, ha⟩ := ih hp
      exact ⟨before, after ++ [c], by simp, ht,
        List.forall_mem_append.mpr ⟨ha, List.forall_mem_singleton.mpr hc⟩⟩
    · exact ⟨calls, [], rfl, by rw [ht, lastTicket_replay], List.forall_mem_nil _⟩

end Scheduler

end Statechart
