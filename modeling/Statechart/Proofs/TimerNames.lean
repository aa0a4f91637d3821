import Statechart.Interpreter.Nested
import Statechart.Proofs.Agenda
import Statechart.Proofs.Arising
import Statechart.Proofs.Resumption
import Statechart.Proofs.Settle

-- What timers are called, which of them share a name, and what becomes of those that do.

namespace Statechart

open Definition (timerName timerSend timerCancel timers)

namespace Delay

variable {d e : Delay}

-- Delays that are written alike.
inductive Alike : Delay → Delay → Prop
  | fixed {a b : Duration} : a.millis = b.millis → Alike (.fixed a) (.fixed b)
  | named {name : String} : Alike (.named name) (.named name)
  | spelled {a : Duration} : Alike (.fixed a) (.named (toString a.millis))
  | spelling {a : Duration} : Alike (.named (toString a.millis)) (.fixed a)

theorem label_eq_iff : d.label = e.label ↔ d.Alike e := by
  constructor
  case mp =>
    intro h
    cases d with
    | fixed a =>
      cases e with
      | fixed b =>
        have h : Nat.toDigits 10 a.millis = Nat.toDigits 10 b.millis := by
          rw [← Nat.toList_repr, ← Nat.toList_repr]
          exact congrArg String.toList h
        refine .fixed ?_
        rw [← Nat.ofDigitChars_ten_toDigits (n := a.millis), h, Nat.ofDigitChars_ten_toDigits]
      | named name =>
        obtain rfl : toString a.millis = name := h
        exact .spelled
    | named name =>
      cases e with
      | fixed b =>
        obtain rfl : name = toString b.millis := h
        exact .spelling
      | named name' =>
        obtain rfl : name = name' := h
        exact .named
  case mpr =>
    intro h
    cases h with
    | fixed h => exact congrArg toString h
    | named | spelled | spelling => rfl

-- A delay that is told in full by how it is written.
def IsPlain : Delay → Prop
  | fixed a => ∃ k, a = .ofMillis k
  | named name => (∀ k : Nat, name ≠ toString k) ∧ ¬ [')', '#'] <:+: name.toList

theorem Alike.eq_of_plain (h : d.Alike e) (hd : d.IsPlain) (he : e.IsPlain) : d = e := by
  cases h with
  | fixed h =>
    obtain ⟨k, rfl⟩ := hd
    obtain ⟨l, rfl⟩ := he
    obtain rfl : k = l := by
      simpa [Duration.ofMillis, Duration.millis, Duration.nanosPerMilli] using h
    rfl
  | named => rfl
  | spelled => exact absurd rfl (he.left _)
  | spelling => exact absurd rfl (hd.left _)

-- Only a named delay can be written with a bracket.
theorem exists_named_of_bracket (h : ')' ∈ d.label.toList) : ∃ name, d = .named name := by
  cases d with
  | fixed a =>
    change ')' ∈ a.millis.repr.toList at h
    rw [Nat.toList_repr] at h
    exact absurd (Nat.isDigit_of_mem_toDigits (by decide) (by decide) h) (by decide)
  | named name => exact ⟨name, rfl⟩

end Delay

namespace Definition

variable {i j : String} {d e : Delay}

-- The name of the delay `e` goes on where `d` ends, and what it adds is read as part of the id of a
-- node.
def Mimics (i : String) (d : Delay) (j : String) (e : Delay) : Prop :=
  ∃ w, e = .named (d.label ++ ")#" ++ w) ∧ i = w ++ ")#" ++ j

theorem timerName_toList : (timerName i d).toList =
    "after(".toList ++ (d.label.toList ++ ')' :: '#' :: i.toList) := by
  simp [timerName, Event.afterName]

-- Where two words are told apart by a mark of two letters, either the words are the same, or one of
-- them has the mark in it.
theorem append_mark_eq_iff {a b : Char} (hab : a ≠ b) {k k' l l' : List Char} :
    k ++ a :: b :: l = k' ++ a :: b :: l' ↔ k = k' ∧ l = l' ∨
      (∃ w, k' = k ++ a :: b :: w ∧ l = w ++ a :: b :: l') ∨
      ∃ w, k = k' ++ a :: b :: w ∧ l' = w ++ a :: b :: l := by
  -- The second word goes on where the first one ends.
  have hlonger {k k' l l' : List Char} {x : List Char} (hk : k' = k ++ x)
      (hx : a :: b :: l = x ++ a :: b :: l') :
      k = k' ∧ l = l' ∨ ∃ w, k' = k ++ a :: b :: w ∧ l = w ++ a :: b :: l' := by
    match x with
    | [] => exact .inl (by simpa [hk] using hx)
    | [c] => exact absurd (by simp_all) hab.symm
    | c :: c' :: w =>
      simp only [List.cons_append, List.cons.injEq] at hx
      obtain ⟨rfl, rfl, hl⟩ := hx
      exact .inr ⟨w, hk, hl⟩
  constructor
  case mp =>
    intro h
    rcases List.append_eq_append_iff.mp h with ⟨x, hk, hx⟩ | ⟨x, hk, hx⟩
    · exact (hlonger hk hx).imp_right .inl
    · rcases hlonger hk hx with ⟨hk, hl⟩ | h
      · exact .inl ⟨hk.symm, hl.symm⟩
      · exact .inr (.inr h)
  case mpr =>
    rintro (⟨rfl, rfl⟩ | ⟨w, rfl, rfl⟩ | ⟨w, rfl, rfl⟩) <;> simp

theorem mimics_iff : Mimics i d j e ↔ ∃ w, e.label.toList = d.label.toList ++ ')' :: '#' :: w ∧
    i.toList = w ++ ')' :: '#' :: j.toList := by
  constructor
  case mp =>
    rintro ⟨w, rfl, rfl⟩
    exact ⟨w.toList, by simp [Delay.label], by simp⟩
  case mpr =>
    rintro ⟨w, he, hi⟩
    obtain ⟨name, rfl⟩ : ∃ name, e = .named name := Delay.exists_named_of_bracket (by simp [he])
    refine ⟨String.ofList w, ?_, String.toList_inj.mp (by simp [hi])⟩
    exact congrArg Delay.named (String.toList_inj.mp (by simpa [Delay.label] using he))

theorem Mimics.not_plain (h : Mimics i d j e) : ¬ e.IsPlain := by
  obtain ⟨w, rfl, _⟩ := h
  exact fun he => he.right ⟨d.label.toList, w.toList, by simp⟩

theorem timerName_eq_iff : timerName i d = timerName j e ↔
    i = j ∧ d.Alike e ∨ Mimics i d j e ∨ Mimics j e i d := by
  rw [← String.toList_inj, timerName_toList, timerName_toList, List.append_cancel_left_eq,
    append_mark_eq_iff (by decide), mimics_iff, mimics_iff, String.toList_inj, String.toList_inj,
    Delay.label_eq_iff, and_comm (a := d.Alike e)]

-- On one node the name tells as much as the label.
theorem timerName_same : timerName i d = timerName i e ↔ d.Alike e := by
  rw [← String.toList_inj, timerName_toList, timerName_toList, List.append_cancel_left_eq,
    List.append_cancel_right_eq, String.toList_inj, Delay.label_eq_iff]

-- The last of some delays that are written alike.
theorem exists_last_alike {ds : List Delay} (h : ∃ x ∈ ds, d.Alike x) : ∃ early last late,
    ds = early ++ last :: late ∧ d.Alike last ∧ ∀ x ∈ late, ¬ d.Alike x := by
  induction ds with
  | nil => simp at h
  | cons x rest ih =>
    by_cases hr : ∃ y ∈ rest, d.Alike y
    case pos =>
      obtain ⟨early, last, late, rfl, hl⟩ := ih hr
      exact ⟨x :: early, last, late, rfl, hl⟩
    case neg =>
      simp only [not_exists, not_and] at hr
      obtain ⟨y, hy, hdy⟩ := h
      rcases List.mem_cons.mp hy with rfl | hy
      · exact ⟨[], y, rest, rfl, hdy, hr⟩
      · exact absurd hdy (hr y hy)

end Definition

variable {C S A : Type} {t : Tree} {r : Registry C S} {e : Event} {n : NodeIndex} {name : String}
  {now : Duration}

-- Neither sets nor ends the timer `name` of `n`.
def Planned.SparesTimer (n : NodeIndex) (name : String) : Planned → Prop
  | send _ _ (some _) id owner => ¬ (owner = n ∧ id = some name)
  | cancel id => id ≠ name
  | cancelOwned owner => owner ≠ n
  | _ => True

namespace Scheduler

variable {s : Scheduler} {f : Scheduled}

-- What is pending for one timer of a node.
def pendingFor (s : Scheduler) (n : NodeIndex) (name : String) : List Scheduled :=
  (s.queue.filter fun p => p.owner = n ∧ p.id = some name).map (·.toScheduled)

theorem filter_insertPending {p : Pending} {f : Pending → Bool} (hp : f p = false)
    (l : List Pending) : (insertPending p l).filter f = l.filter f := by
  induction l with
  | nil => simp [insertPending, hp]
  | cons q rest ih =>
    rw [insertPending]
    split
    · rw [List.filter_cons, List.filter_cons, ih]
    · rw [List.filter_cons_of_neg (by simp [hp])]

-- Scheduling a timer replaces what was pending for it, and nothing else.
theorem pendingFor_schedule_same (hn : f.owner = n) (hi : f.id = some name) :
    (s.schedule f).pendingFor n name = [f] := by
  have hnone : (s.queue.filter fun p => !sameTimer f p).filter
      (fun p => p.owner = n ∧ p.id = some name) = [] := by
    rw [List.filter_eq_nil_iff]
    intro p hp
    simpa [sameTimer, hn, hi, imp_iff_not_or, or_comm] using (List.mem_filter.mp hp).right
  have hperm := (insertPending_perm (p := { toScheduled := f, ticket := s.lastTicket + 1 })
    (s.queue.filter fun p => !sameTimer f p)).filter fun p => p.owner = n ∧ p.id = some name
  rw [List.filter_cons_of_pos (by simp [hn, hi]), hnone, List.perm_singleton] at hperm
  rw [pendingFor, schedule, hperm, List.map_singleton]

-- What is removed from the queue is something else.
theorem filter_kept {f : Pending → Bool} (l : List Pending)
    (hf : ∀ p, p.owner = n → p.id = some name → f p = false) :
    (l.filter fun p => !f p).filter (fun p => p.owner = n ∧ p.id = some name) =
      l.filter fun p => p.owner = n ∧ p.id = some name := by
  rw [List.filter_filter]
  refine List.filter_congr fun p _ => ?_
  by_cases hp : p.owner = n ∧ p.id = some name
  case pos => simp [hp, hf p hp.left hp.right]
  case neg => simp [hp]

theorem pendingFor_schedule_other (h : ¬ (f.owner = n ∧ f.id = some name)) :
    (s.schedule f).pendingFor n name = s.pendingFor n name := by
  rw [pendingFor, schedule, filter_insertPending (by simpa using h), filter_kept, pendingFor]
  intro p hn hi
  simp only [sameTimer, Bool.and_eq_false_iff, hn, hi]
  grind

theorem pendingFor_spared {a : Planned} (ha : a.SparesTimer n name) :
    (s.after now a).pendingFor n name = s.pendingFor n name := by
  cases a with
  | send event target delay id owner =>
    cases delay with
    | none => rfl
    | some delay =>
      simp only [after, Planned.scheduled?]
      cases now.add? delay with
      | none => rfl
      | some deadline => exact pendingFor_schedule_other ha
  | cancel id => exact congrArg _ (filter_kept s.queue fun p _ hi => by simp [hi, Ne.symm ha])
  | cancelOwned owner =>
    exact congrArg _ (filter_kept s.queue fun p hn _ => by simp [hn, Ne.symm ha])
  | _ => rfl

theorem pendingFor_spared_all {actions : List Planned} (ha : ∀ a ∈ actions, a.SparesTimer n name) :
    (actions.foldl (after now) s).pendingFor n name = s.pendingFor n name := by
  induction actions generalizing s with
  | nil => rfl
  | cons a rest ih =>
    obtain ⟨ha, hrest⟩ := List.forall_mem_cons.mp ha
    rw [List.foldl_cons, ih hrest, pendingFor_spared ha]

end Scheduler

namespace Plan

variable {p q p₁ : Plan C} {a : Action} {actions : List Action} {owner k : NodeIndex}

-- All that `q` plans beyond `p` leaves the timer alone.
def Spares (n : NodeIndex) (name : String) (p q : Plan C) : Prop :=
  ∃ later, q.actions = p.actions ++ later ∧ ∀ b ∈ later, b.SparesTimer n name

namespace Spares

theorem of_eq (h : q.actions = p.actions) : p.Spares n name q := ⟨[], by simp [h], by simp⟩

theorem push {b : Planned} (hb : b.SparesTimer n name) : p.Spares n name (p.push b) :=
  ⟨[b], rfl, by simpa using hb⟩

theorem trans (h : p.Spares n name p₁) (h' : p₁.Spares n name q) : p.Spares n name q := by
  obtain ⟨later, ha, hl⟩ := h
  obtain ⟨later', ha', hl'⟩ := h'
  exact ⟨later ++ later', by simp [ha, ha'], List.forall_mem_append.mpr ⟨hl, hl'⟩⟩

theorem foldlM {α : Type} {f : Plan C → α → Except ExecutionError (Plan C)} {l : List α}
    (hf : ∀ a ∈ l, ∀ p q, f p a = .ok q → p.Spares n name q) (h : l.foldlM f p = .ok q) :
    p.Spares n name q :=
  foldlM_keeps (I := fun q => p.Spares n name q)
    (fun p' a ha q hp hq => hp.trans (hf a ha p' q hq)) (.of_eq rfl) h

end Spares

-- An action that does not cancel the timer, and does not set it, because it is planned for another
-- node or sends under another id.
theorem add_spares (hc : a ≠ .cancel name)
    (hs : owner ≠ n ∨ ∀ x, a = .send x → x.id ≠ some name) (h : add r e owner p a = .ok q) :
    p.Spares n name q := by
  cases a with
  | named action =>
    simp only [add] at h
    split at h
    · cases h
      exact .of_eq rfl
    · cases h
      exact .push trivial
    · cases h
  | send x =>
    obtain ⟨delay, _, h⟩ := Microstep.bind_eq_ok.mp h
    cases h
    refine .push ?_
    cases delay with
    | none => trivial
    | some delay =>
      rintro ⟨rfl, hi⟩
      exact hs.elim (absurd rfl) fun hs => hs x rfl hi
  | raise event =>
    cases h
    exact .of_eq rfl
  | cancel id =>
    cases h
    exact .push fun hi => hc (congrArg Action.cancel hi)
  | _ =>
    cases h
    exact .push trivial

theorem add_timer {i : String} {d : Delay} (h : add r e n p (timerSend i d) = .ok q) :
    ∃ span, d.duration? r e p.context = some span ∧
      q = p.push (.timer n (timerName i d) span) := by
  obtain ⟨span?, hspan, h⟩ := Microstep.bind_eq_ok.mp h
  cases h
  cases d with
  | fixed span =>
    cases hspan
    exact ⟨span, rfl, rfl⟩
  | named name =>
    cases hf : r.delays.find? name with
    | none => simp [delay, hf, Functor.map, Except.map] at hspan
    | some compute =>
      simp only [Option.mapM_some, delay, hf] at hspan
      cases hspan
      exact ⟨compute p.context e, by simp [Delay.duration?, hf], rfl⟩

theorem invoke_spares : p.Spares n name (p.invoke t k) :=
  ⟨_, rfl, List.forall_mem_map.mpr fun _ _ => trivial⟩

end Plan

namespace Microstep

variable {p q : Plan C} {k : NodeIndex} {ns : List NodeIndex} {i : String} {d : Delay}
  {early : List Action} {late : List Delay}

theorem enterNode_eq_ok : enterNode t r e p n = .ok q ↔
    ∃ p₁, p.addAll r e n (t.node n).entry = .ok p₁ ∧
      { p₁.invoke t n with raised := p₁.raised ++ (t.doneEvent? n).toList } = q := by
  simp only [enterNode, Plan.enter, bind_eq_ok]
  constructor
  case mp =>
    rintro ⟨_, ⟨p₁, h₁, h₂⟩, h⟩
    cases h₂
    cases h
    exact ⟨p₁, h₁, rfl⟩
  case mpr =>
    rintro ⟨p₁, h₁, rfl⟩
    exact ⟨_, ⟨p₁, h₁, rfl⟩, rfl⟩

theorem enterNode_spares (hk : k ≠ n) (hc : .cancel name ∉ (t.node k).entry)
    (h : enterNode t r e p k = .ok q) : p.Spares n name q := by
  obtain ⟨p₁, h₁, rfl⟩ := enterNode_eq_ok.mp h
  have h₁ : p.Spares n name p₁ := .foldlM (f := Plan.add r e k)
    (fun a ha _ _ => Plan.add_spares (fun h => hc (h ▸ ha)) (.inl hk)) h₁
  exact h₁.trans (Plan.invoke_spares.trans (.of_eq rfl))

-- Of the timers of one name the one that is set last counts.
theorem enterNode_sets (he : (t.node n).entry = early ++ timerSend i d :: late.map (timerSend i))
    (hl : ∀ x ∈ late, timerName i x ≠ timerName i d) (h : enterNode t r e p n = .ok q) :
    ∃ (x : C) (span : Duration) (p₁ : Plan C), d.duration? r e x = some span ∧
      (p₁.push (.timer n (timerName i d) span)).Spares n (timerName i d) q := by
  obtain ⟨p₂, h₂, rfl⟩ := enterNode_eq_ok.mp h
  rw [he, Plan.addAll, List.foldlM_append] at h₂
  obtain ⟨p₁, _, h₂⟩ := bind_eq_ok.mp h₂
  rw [List.foldlM_cons] at h₂
  obtain ⟨p₃, h₃, h₂⟩ := bind_eq_ok.mp h₂
  obtain ⟨span, hd, rfl⟩ := Plan.add_timer h₃
  have hlate (a : Action) (ha : a ∈ late.map (timerSend i)) (p q : Plan C)
      (hq : Plan.add r e n p a = .ok q) : p.Spares n (timerName i d) q := by
    obtain ⟨x, hx, rfl⟩ := List.mem_map.mp ha
    have hc : timerSend i x ≠ .cancel (timerName i d) := Action.noConfusion
    refine Plan.add_spares hc (.inr fun y hy => ?_) hq
    cases hy
    exact fun hi => hl x hx (Option.some.inj hi)
  exact ⟨_, span, p₁, hd,
    (Plan.Spares.foldlM hlate h₂).trans (Plan.invoke_spares.trans (.of_eq rfl))⟩

-- Entering some nodes, one of them once, leaves its timer as it was set last, unless the entry of a
-- node cancels it.
theorem enterNodes_set (hn : n ∈ ns) (hnd : ns.Nodup)
    (he : (t.node n).entry = early ++ timerSend i d :: late.map (timerSend i))
    (hl : ∀ x ∈ late, timerName i x ≠ timerName i d)
    (hc : ∀ k ∈ ns, .cancel (timerName i d) ∉ (t.node k).entry)
    (h : ns.foldlM (enterNode t r e) p = .ok q) :
    ∃ (x : C) (span : Duration) (p₁ : Plan C), d.duration? r e x = some span ∧
      (p₁.push (.timer n (timerName i d) span)).Spares n (timerName i d) q := by
  obtain ⟨before, after, rfl⟩ := List.append_of_mem hn
  rw [List.foldlM_append] at h
  obtain ⟨p₁, _, h⟩ := bind_eq_ok.mp h
  rw [List.foldlM_cons] at h
  obtain ⟨p₂, h₂, h⟩ := bind_eq_ok.mp h
  obtain ⟨x, span, p₃, hd, hp⟩ := enterNode_sets he hl h₂
  obtain ⟨hnot, _⟩ := List.nodup_cons.mp (List.nodup_append.mp hnd).right.left
  have hafter (k : NodeIndex) (hk : k ∈ after) (p q : Plan C) (hq : enterNode t r e p k = .ok q) :
      p.Spares n (timerName i d) q :=
    enterNode_spares (fun h => hnot (h ▸ hk)) (hc k (by simp [hk])) hq
  exact ⟨x, span, p₃, hd, hp.trans (.foldlM hafter h)⟩

-- What is pending for a timer of an entered node after a microstep is carried out.
theorem Arises.pending {c : Configuration} {us : List Transition} {m : Microstep C} {env : Env}
    [ActorModel C S A] {x : C} {e : Event} {shell shell' : Shell C A} (ha : Arises t r c us m)
    (hn : n ∈ m.entered)
    (he : (t.node n).entry = early ++ timerSend i d :: late.map (timerSend i))
    (hl : ∀ x ∈ late, timerName i x ≠ timerName i d)
    (hc : ∀ k ∈ m.entered, .cancel (timerName i d) ∉ (t.node k).entry)
    (h : (shell.performAll env r x e m.actions).outcome = .ok (shell', none)) :
    ∃ e y span f, d.duration? r e y = some span ∧
      (Planned.timer n (timerName i d) span).scheduled? env.now = some f ∧
      shell'.scheduler.pendingFor n (timerName i d) = [f] := by
  obtain ⟨_, _, _, _, _, hm⟩ := ha.composed
  obtain ⟨y, span, p₁, hd, later, hs, hlater⟩ :=
    enterNodes_set hn ha.entered_nodup he hl hc hm.entries
  have hactions : m.actions = (m.exitActions ++ m.transitionActions ++ p₁.actions) ++
      .timer n (timerName i d) span :: later := by
    simp [Microstep.actions, hm.entryActions, hs, Plan.push]
  have hall := Shell.performAll_ok h
  have hin := hall.in_time (.timer n (timerName i d) span) (by simp [hactions])
  obtain ⟨f, hf⟩ : ∃ f, (Planned.timer n (timerName i d) span).scheduled? env.now = some f := by
    simp only [Planned.timer, Planned.overflows, Option.isNone_eq_false_iff] at hin
    obtain ⟨deadline, hdl⟩ := Option.isSome_iff_exists.mp hin
    exact ⟨_, congrArg (Option.map _) hdl⟩
  obtain ⟨hown, hid, _⟩ := Planned.scheduled?_timer hf
  refine ⟨_, y, span, f, hd, hf, ?_⟩
  rw [hall.scheduler, hactions, List.foldl_append, List.foldl_cons,
    Scheduler.pendingFor_spared_all hlater]
  rw [show Scheduler.after env.now _ (Planned.timer n (timerName i d) span) = Scheduler.schedule _ f
    from congrArg (fun f => Option.getD (Option.map _ f) _) hf]
  exact Scheduler.pendingFor_schedule_same hown hid

end Microstep

-- Two timers that have one name: their delays are written alike and belong to one node, or the name
-- of one delay goes on as if it were the rest of the other timer's name.
def Tree.Confuses (t : Tree) (n : NodeIndex) (d : Delay) (m : NodeIndex) (e : Delay) : Prop :=
  n = m ∧ d.Alike e ∨ Definition.Mimics (t.node n).id d (t.node m).id e ∨
    Definition.Mimics (t.node m).id e (t.node n).id d

theorem Tree.confuses_iff_of_plain {m : NodeIndex} {d d' : Delay} (hd : d.IsPlain)
    (hd' : d'.IsPlain) : t.Confuses n d m d' ↔ n = m ∧ d = d' := by
  constructor
  case mp =>
    rintro (⟨hn, h⟩ | h | h)
    · exact ⟨hn, h.eq_of_plain hd hd'⟩
    · exact absurd hd' h.not_plain
    · exact absurd hd h.not_plain
  case mpr =>
    rintro ⟨rfl, rfl⟩
    exact .inl ⟨rfl, Delay.label_eq_iff.mp rfl⟩

namespace Definition

-- What becomes of the transitions after a delay, and which of them are taken for each other.
structure State.Timed (root : State) (machineId : String) (t : Tree) : Prop where
  -- The timer is set on entry and cancelled on exit, and the transition listens to its event.
  lowered {n : NodeIndex} {s : State} {d : Delay} {u : TransitionSpec} :
    root.listed[n]? = some s → (.after d, u) ∈ s.spec.transitions →
      timerSend (t.node n).id d ∈ (t.node n).entry ∧
      timerCancel (t.node n).id d ∈ (t.node n).exit ∧
      ∃ v ∈ (t.node n).transitions,
        u.Becomes (Layout.ofState machineId root) n (.exact (timerName (t.node n).id d)) v
  named {n m : NodeIndex} {d e : Delay} : n < t.size → m < t.size →
    (timerName (t.node n).id d = timerName (t.node m).id e ↔ t.Confuses n d m e)
  plain {n m : NodeIndex} {d e : Delay} : d.IsPlain → e.IsPlain →
    (t.Confuses n d m e ↔ n = m ∧ d = e)
  enables {n m : NodeIndex} {d e : Delay} {v : Transition} {ev : Event} :
    n < t.size → m < t.size → v ∈ (t.node m).transitions →
      v.on = .exact (timerName (t.node m).id e) → ev.name = timerName (t.node n).id d →
      (v ∈ Selection.candidates (t.node m) ev false ↔ t.Confuses n d m e)
  replaces {n m : NodeIndex} {d e : Delay} {span now : Duration} {p : Pending} :
    n < t.size → m < t.size → p.owner = n → p.id = some (timerName (t.node n).id d) →
      (Planned.timer m (timerName (t.node m).id e) span).overflows now = false →
      ((Planned.timer m (timerName (t.node m).id e) span).endsTimer now p = true ↔
        n = m ∧ d.Alike e)
  cancels {n m : NodeIndex} {d e : Delay} {now : Duration} {p : Pending} :
    n < t.size → m < t.size → p.id = some (timerName (t.node n).id d) →
      ((Planned.cancel (timerName (t.node m).id e)).endsTimer now p = true ↔ t.Confuses n d m e)
  -- Entering a state leaves one timer for all delays that are written alike, that of the last one,
  -- unless an entry action cancels it.
  armed {C S A : Type} [ActorModel C S A] {r : Registry C S} {c : Configuration}
      {us : List Transition} {m : Microstep C} {env : Env} {x : C} {e : Event}
      {shell shell' : Shell C A} {n : NodeIndex} {s : State} {d : Delay} :
    Microstep.Arises t r c us m → n ∈ m.entered → root.listed[n]? = some s → d ∈ timers s.spec →
      (∀ k ∈ m.entered, .cancel (timerName (t.node n).id d) ∉ (t.node k).entry) →
      (shell.performAll env r x e m.actions).outcome = .ok (shell', none) →
      ∃ early last late, timers s.spec = early ++ last :: late ∧ d.Alike last ∧
        (∀ d' ∈ late, ¬ d.Alike d') ∧ ∃ ev y span f, last.duration? r ev y = some span ∧
          (Planned.timer n (timerName (t.node n).id d) span).scheduled? env.now = some f ∧
          shell'.scheduler.pendingFor n (timerName (t.node n).id d) = [f]

variable {root : State} {machineId : String} {m : NodeIndex} {d e : Delay}

theorem State.build_id_inj (h : root.build machineId = .ok t) (hn : n < t.size) (hm : m < t.size) :
    (t.node n).id = (t.node m).id ↔ n = m := by
  constructor
  case mp =>
    intro hid
    have hi := (State.build_indexOf? h).mpr ⟨hn, rfl⟩
    rw [(State.build_indexOf? h).mpr ⟨hm, hid.symm⟩] at hi
    exact (Option.some.inj hi).symm
  case mpr => exact congrArg fun n => (t.node n).id

theorem State.build_timerName (h : root.build machineId = .ok t) (hn : n < t.size)
    (hm : m < t.size) :
    timerName (t.node n).id d = timerName (t.node m).id e ↔ t.Confuses n d m e := by
  rw [timerName_eq_iff, State.build_id_inj h hn hm, Tree.Confuses]

-- Timers are told apart by their names, so that two timers are taken for each other exactly if
-- they have one name.
theorem State.build_timed (h : root.build machineId = .ok t) : root.Timed machineId t where
  lowered {n s d u} hs hu := by
    have hb := State.build_written h hs
    have hd : d ∈ timers s.spec := List.mem_filterMap.mpr ⟨_, hu, rfl⟩
    refine ⟨?_, ?_, ?_⟩
    case refine_1 => exact Microstep.timerSend_mem_entry h hs hd
    case refine_2 =>
      rw [hb.exit]
      exact List.mem_append_right _ (List.mem_map_of_mem hd)
    case refine_3 =>
      have hl : (Occasion.descriptor (t.node n).id (.after d), u) ∈
          s.spec.listeners (t.node n).id :=
        List.mem_append_left _ (List.mem_map_of_mem hu)
      exact exists_of_forall₂
        (R := fun v x => x.2.Becomes (Layout.ofState machineId root) n x.1 v) hb.transitions.flip hl
  named hn hm := State.build_timerName h hn hm
  plain := Tree.confuses_iff_of_plain
  enables {n m d e v ev} hn hm hv hon hev := by
    rw [← State.build_timerName h hn hm, ← hev]
    simp [Selection.candidates, hv, hon, Descriptor.isExact, Descriptor.isWildcard, eq_comm]
  replaces {n m d e span now p} hn hm ho hi hin := by
    rw [Planned.endsTimer_timer_iff hin, ho, hi, Option.some.injEq]
    refine and_congr_right fun hnm => ?_
    rw [hnm, timerName_same]
  cancels hn hm hi := by
    rw [← State.build_timerName h hn hm]
    simp [Planned.endsTimer, hi]
  armed {C S A _ r c us m env x e shell shell' n s d} ha hn hs hd hc hp := by
    have hb := State.build_written h hs
    obtain ⟨early, last, late, hds, hlast, hlate⟩ :=
      exists_last_alike ⟨d, hd, Delay.label_eq_iff.mp rfl⟩
    have he : (t.node n).entry = (s.spec.entry ++ early.map (timerSend (t.node n).id)) ++
        timerSend (t.node n).id last :: late.map (timerSend (t.node n).id) := by
      rw [hb.entry, hds, List.map_append, List.map_cons, List.append_assoc]
    rw [timerName_same.mpr hlast] at hc ⊢
    refine ⟨early, last, late, hds, hlast, hlate, ha.pending hn he (fun x hx hname => ?_) hc hp⟩
    have hlabel := Delay.label_eq_iff.mpr (timerName_same.mp hname)
    exact hlate x hx (Delay.label_eq_iff.mp ((Delay.label_eq_iff.mpr hlast).trans hlabel.symm))

end Definition

section Alarm

def stirring : Delay := .fixed (.ofNanos 1000000)

def waking : Delay := .fixed (.ofNanos 1500000)

theorem stirring_alike_waking : stirring.Alike waking := .fixed rfl

-- One stirs, and wakes up a moment later.
def alarm : Definition.State :=
  .mk { key := "m", initial := some "asleep" } [
    .mk {
      key := "asleep"
      transitions := [
        (.after stirring, { targets := ["restless"] }),
        (.after waking, { targets := ["awake"] })] } [],
    .mk { key := "restless" } [],
    .mk { key := "awake" } []]

def alarmTree : Tree := ((Definition.Layout.ofState "m" alarm).lower "m").value

theorem alarm_build : alarm.build "m" = .ok alarmTree :=
  Definition.State.build_of_problems (by decide +kernel)

def alarmMachine : NestedMachine Unit 0 where
  tree := alarmTree
  registry := {}
  context := ()

def asleep : Definition.State := alarm.children[0]!

theorem asleep_listed : alarm.listed[1]? = some asleep := rfl

theorem asleep_timers : timers asleep.spec = [stirring, waking] := rfl

def wakeUp : Scheduled where
  event := { name := "after(1)#m.asleep" }
  target := .self
  owner := 1
  id := some "after(1)#m.asleep"
  deadline := .ofNanos 1500000

theorem alarm_initial : ∃ m, Microstep.initial alarmTree alarmMachine.registry .init () ∅ = .ok m ∧
    m.entered = [0, 1] ∧ m.actions = [
      .timer 1 "after(1)#m.asleep" (.ofNanos 1000000),
      .timer 1 "after(1)#m.asleep" (.ofNanos 1500000)] :=
  Microstep.exists_eq_ok (by decide +kernel)

-- Only the second of the two timers is set when one falls asleep.
theorem Definition.State.build_timed_alarm :
    ∃ (m : Microstep Unit) (s s' : Shell Unit (Actor (Child Unit 0))),
      Microstep.Arises alarmTree alarmMachine.registry ∅ [] m ∧ 1 ∈ m.entered ∧
      (s.performAll { now := .zero } alarmMachine.registry () .init m.actions).outcome =
        .ok (s', none) ∧
      s'.scheduler.pendingFor 1 "after(1)#m.asleep" = [wakeUp] := by
  obtain ⟨m, hm, hentered, hactions⟩ := alarm_initial
  obtain ⟨s', hs⟩ : ∃ s', (Shell.performAll { now := .zero } alarmMachine.registry () .init
      m.actions ({ id := "m" } : Shell Unit (Actor (Child Unit 0)))).outcome = .ok (s', none) := by
    rw [hactions]
    exact ⟨_, rfl⟩
  have harises := Microstep.Arises.initial hm
  have hn : 1 ∈ m.entered := by simp [hentered]
  obtain ⟨early, last, late, htimers, _, hlate, _, _, span, f, hspan, hf, hpending⟩ :=
    (State.build_timed alarm_build).armed harises hn asleep_listed (d := stirring)
      (by decide +kernel) (by rw [hentered]; decide +kernel) hs
  rw [asleep_timers] at htimers
  obtain rfl : waking = last := by
    rcases early with _ | ⟨_, _ | ⟨_, _⟩⟩
    · obtain ⟨_, rfl⟩ := List.cons.inj htimers
      exact absurd stirring_alike_waking (hlate waking (List.mem_singleton_self _))
    · exact (List.cons.inj (List.cons.inj htimers).right).left
    · simp at htimers
  obtain rfl : Duration.ofNanos 1500000 = span := Option.some.inj hspan
  obtain rfl : wakeUp = f := Option.some.inj hf
  exact ⟨m, _, s', harises, hn, hs, hpending⟩

theorem alarm_start : ∃ s : Shell Unit (Actor (Child Unit 0)),
    ((Interpreter.new alarmMachine).start { now := .zero }).outcome = .ok {
      machine := alarmMachine
      state := { configuration := .ofList [0, 1], context := (), history := ∅ }
      shell := s } ∧ s.scheduler.queue = [{ wakeUp with ticket := 2 }] := by
  obtain ⟨m, hreacts, ha⟩ : ∃ m, Macrostep.Reacts alarmMachine.tree alarmMachine.registry
      alarmMachine.config (.plain ∅) .start m (.plain (.ofList [0, 1])) ∧ m.actions = [
        .timer 1 "after(1)#m.asleep" (.ofNanos 1000000),
        .timer 1 "after(1)#m.asleep" (.ofNanos 1500000)] :=
    Macrostep.exists_reacts (by decide +kernel)
  obtain ⟨s, h, hn, _⟩ := Interpreter.start_of_reacts { now := .zero }
    (i := (Interpreter.new alarmMachine : NestedInterpreter Unit 0))
    (s := {
      id := "m"
      status := .running
      scheduler := { queue := [{ wakeUp with ticket := 2 }], lastTicket := 2 } }) rfl hreacts
    (by rw [Interpreter.commit, ha]; rfl) ⟨rfl, rfl⟩ rfl
  exact ⟨s, h, congrArg Scheduler.queue hn.scheduler⟩

-- Different delays of one state can have one name, and then only one of them is waited for.
theorem Definition.State.exists_timers_confused : ∃ (root : Definition.State) (machineId : String)
    (m : NestedMachine Unit 0) (env : Env) (i : NestedInterpreter Unit 0) (n : NodeIndex)
    (s : Definition.State) (d e : Delay) (f : Pending), root.build machineId = .ok m.tree ∧
      root.listed[n]? = some s ∧ d ∈ timers s.spec ∧ e ∈ timers s.spec ∧ d ≠ e ∧
      timerName (m.tree.node n).id d = timerName (m.tree.node n).id e ∧
      ((Interpreter.new m).start env).outcome = .ok i ∧ n ∈ i.state.configuration ∧
      i.shell.scheduler.queue = [f] := by
  obtain ⟨s, hs, hq⟩ := alarm_start
  exact ⟨alarm, "m", alarmMachine, { now := .zero }, _, 1, asleep, stirring, waking, _, alarm_build,
    asleep_listed, by decide +kernel, by decide +kernel, by decide,
    timerName_same.mpr stirring_alike_waking, hs, by simp, hq⟩

end Alarm

end Statechart
