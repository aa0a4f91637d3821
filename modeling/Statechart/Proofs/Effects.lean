import Mathlib.Data.List.Induction
import Statechart.Interpreter.Actor
import Statechart.Interpreter.Scheduler
import Statechart.Plan

-- What the actions of a plan do to the delayed events and to the actors that are there.

namespace Statechart

-- What holds after some steps held before or since one of them, and was ended by none that came
-- later.
theorem holds_foldl_iff {σ α : Type} {f : σ → α → σ} {I H : σ → Prop} {ends : α → Bool}
    (starts : σ → α → Prop) (hI : ∀ s a, I s → I (f s a))
    (hf : ∀ s a, I s → (H (f s a) ↔ H s ∧ ends a = false ∨ starts s a)) {l : List α} {s : σ}
    (hs : I s) : H (l.foldl f s) ↔ (H s ∧ ∀ a ∈ l, ends a = false) ∨
      ∃ before a later, l = before ++ a :: later ∧ starts (before.foldl f s) a ∧
        ∀ b ∈ later, ends b = false := by
  have hfold (l : List α) : I (l.foldl f s) := by
    induction l using List.reverseRecOn with
    | nil => exact hs
    | append_singleton l a ih =>
      rw [List.foldl_append]
      exact hI _ _ ih
  induction l using List.reverseRecOn with
  | nil => simp
  | append_singleton l b ih =>
    rw [List.foldl_append, List.foldl_cons, List.foldl_nil]
    refine (hf _ _ (hfold l)).trans ((or_congr_left (and_congr_left' ih)).trans ?_)
    constructor
    case mp =>
      rintro (⟨⟨hp, h⟩ | ⟨before, a, later, hl, ha, h⟩, hb⟩ | hp)
      · refine .inl ⟨hp, fun a ha => ?_⟩
        cases (List.mem_append.mp ha)
        case inl ha => exact h a ha
        case inr ha => exact List.mem_singleton.mp ha ▸ hb
      · refine .inr ⟨before, a, later ++ [b], by simp [hl], ha, fun x hx => ?_⟩
        cases (List.mem_append.mp hx)
        case inl hx => exact h x hx
        case inr hx => exact List.mem_singleton.mp hx ▸ hb
      · exact .inr ⟨l, b, [], rfl, hp, by simp⟩
    case mpr =>
      rintro (⟨hp, h⟩ | ⟨before, a, later, hl, ha, h⟩)
      · exact .inl ⟨.inl ⟨hp, fun a ha => h a (by simp [ha])⟩, h b (by simp)⟩
      · cases later using List.reverseRecOn with
        | nil =>
          have ⟨hb, hab⟩ := List.append_inj' hl rfl
          obtain rfl := List.singleton_inj.mp hab
          exact .inr (hb ▸ ha)
        | append_singleton later x _ =>
          rw [← List.cons_append, ← List.append_assoc] at hl
          have ⟨hb, hx⟩ := List.append_inj' hl rfl
          obtain rfl := List.singleton_inj.mp hx
          exact .inl ⟨.inr ⟨before, a, later, hb, ha, fun x hx => h x (by simp [hx])⟩,
            h b (by simp)⟩

-- What a command sends to the machine itself.
def Command.own? : Command → Option Event
  | send e => some e
  | _ => none

-- What it sends to the parent.
def Command.toParent? : Command → Option Event
  | sendParent e => some e
  | _ => none

namespace Planned

-- The delayed event that the action schedules.
def scheduled? (now : Duration) : Planned → Option Scheduled
  | .send event target (some delay) id owner =>
    (now.add? delay).map fun deadline => { event, target, owner, id, deadline }
  | _ => none

-- Whether the action asks for a time that cannot be represented.
def overflows (now : Duration) : Planned → Bool
  | .send _ _ (some delay) _ _ => (now.add? delay).isNone
  | _ => false

-- Whether a delayed event ends with the action: it is cancelled, or the same timer is scheduled
-- anew.
def endsTimer (now : Duration) (a : Planned) (p : Pending) : Bool :=
  match a with
  | .cancel id => p.id = some id
  | .cancelOwned owner => p.owner = owner
  | _ => (a.scheduled? now).any (Scheduler.sameTimer · p)

-- Whether an actor ends with the action: it is stopped, or another one takes its place.
def endsActor (a : Planned) (id : String) : Bool :=
  match a with
  | .stop id' | .spawn _ id' _ _ => id' = id
  | _ => false

def startsActor (a : Planned) (id : String) : Bool :=
  match a with
  | .spawn _ id' _ _ => id' = id
  | _ => false

def onIds (ids : List String) : Planned → List String
  | .stop id => ids.erase id
  | .spawn _ id _ _ => ids.erase id ++ [id]
  | _ => ids

section Ids

variable {ids : List String} {a : Planned} {id : String}

theorem nodup_onIds (hn : ids.Nodup) : (a.onIds ids).Nodup := by
  cases a with
  | stop id => exact hn.erase id
  | spawn _ id =>
    refine List.nodup_append.mpr ⟨hn.erase id, by simp, fun x hx y hy => ?_⟩
    obtain rfl := List.mem_singleton.mp hy
    exact (hn.mem_erase_iff.mp hx).left
  | _ => exact hn

theorem nodup_onIdsAll {actions : List Planned} (hn : ids.Nodup) :
    (actions.foldl onIds ids).Nodup := by
  induction actions generalizing ids with
  | nil => exact hn
  | cons a rest ih => exact ih (nodup_onIds hn)

theorem mem_onIds (hn : ids.Nodup) :
    id ∈ a.onIds ids ↔ id ∈ ids ∧ a.endsActor id = false ∨ a.startsActor id = true := by
  cases a with
  | stop id' => simp [onIds, endsActor, startsActor, hn.mem_erase_iff, and_comm, eq_comm]
  | spawn _ id' => simp [onIds, endsActor, startsActor, hn.mem_erase_iff, and_comm, eq_comm]
  | _ => simp [onIds, endsActor, startsActor]

-- An actor is there after some actions if it was there before or was started by one of them, and
-- ends with none that came later.
theorem mem_onIdsAll {actions : List Planned} (hn : ids.Nodup) : id ∈ actions.foldl onIds ids ↔
    (id ∈ ids ∧ ∀ a ∈ actions, a.endsActor id = false) ∨
      ∃ before a later, actions = before ++ a :: later ∧ a.startsActor id = true ∧
        ∀ b ∈ later, b.endsActor id = false :=
  holds_foldl_iff (I := List.Nodup) (H := fun ids => id ∈ ids)
    (fun _ (a : Planned) => a.startsActor id = true) (fun _ _ => nodup_onIds)
    (fun _ _ => mem_onIds) hn

end Ids

section Telling

variable {C S : Type} (r : Registry C S) (x : C) (e : Event)

-- What is written down when the action is carried out.
def entries (machine : String) : Planned → List (Entry C)
  | .effect name => [.effect name e x]
  | .log label => [.logged label machine e.name]
  | _ => []

-- What the action sends at once, to the machine itself and to its parent.
def commands : Planned → List Command
  | .effect name =>
    match r.actions.find? name with
    | some (.effect run) => (run x e).commands
    | _ => []
  | .send sent .self none _ _ => [.send sent]
  | .send sent .parent none _ _ => [.sendParent sent]
  | _ => []

end Telling

end Planned

namespace Scheduler

variable {now : Duration} {s : Scheduler} {a : Planned} {e : Scheduled} {p q : Pending}

def after (now : Duration) (s : Scheduler) (a : Planned) : Scheduler :=
  match a with
  | .cancel id => s.cancelId id
  | .cancelOwned owner => s.cancelOwner owner
  | _ => ((a.scheduled? now).map s.schedule).getD s

theorem mem_insertPending {l : List Pending} : p ∈ insertPending q l ↔ p = q ∨ p ∈ l := by
  induction l with
  | nil => simp [insertPending]
  | cons x rest ih =>
    simp only [insertPending]
    split
    · simp [ih, or_left_comm]
    · simp

theorem mem_schedule : p ∈ (s.schedule e).queue ↔
    p ∈ s.queue ∧ sameTimer e p = false ∨ p = { e with ticket := s.lastTicket + 1 } := by
  simp [schedule, mem_insertPending, or_comm]

theorem mem_cancelWhere {f : Pending → Bool} :
    p ∈ (s.cancelWhere f).queue ↔ p ∈ s.queue ∧ f p = false := by
  simp [cancelWhere]

-- One action leaves the delayed events that do not end with it, and adds at most one.
theorem mem_after : p ∈ (s.after now a).queue ↔ p ∈ s.queue ∧ a.endsTimer now p = false ∨
    ∃ e, a.scheduled? now = some e ∧ p = { e with ticket := s.lastTicket + 1 } := by
  cases a with
  | cancel id => simp [after, cancelId, mem_cancelWhere, Planned.endsTimer, Planned.scheduled?]
  | cancelOwned owner =>
    simp [after, cancelOwner, mem_cancelWhere, Planned.endsTimer, Planned.scheduled?]
  | send event target delay id owner =>
    simp only [after, Planned.endsTimer]
    cases Planned.scheduled? now (.send event target delay id owner) with
    | none => simp
    | some e => simp [mem_schedule]
  | _ => simp [after, Planned.endsTimer, Planned.scheduled?]

-- A delayed event is there after some actions if it was there before or was scheduled by one of
-- them, and ends with none that came later.
theorem mem_afterAll {actions : List Planned} : p ∈ (actions.foldl (after now) s).queue ↔
    (p ∈ s.queue ∧ ∀ a ∈ actions, a.endsTimer now p = false) ∨
      ∃ before a later, actions = before ++ a :: later ∧ (∃ e, a.scheduled? now = some e ∧
        p = { e with ticket := (before.foldl (after now) s).lastTicket + 1 }) ∧
        ∀ b ∈ later, b.endsTimer now p = false :=
  holds_foldl_iff (I := fun _ => True) (H := fun (s : Scheduler) => p ∈ s.queue)
    (fun s (a : Planned) => ∃ e, a.scheduled? now = some e ∧
      p = { toScheduled := e, ticket := s.lastTicket + 1 })
    (fun _ _ _ => trivial) (fun _ _ _ => mem_after) trivial

end Scheduler

namespace Arena

variable {A : Type} {arena : Arena A} {id id' : String} {x y : A} {e : ArenaEntry A}

theorem find?_cons :
    find? (e :: arena) id = if e.id = id then some e.actor else find? arena id := by
  by_cases h : e.id = id <;> simp [find?, h]

theorem find?_eq_none : find? arena id = none ↔ id ∉ arena.ids := by
  simp [find?, ids]

theorem ids_erase : (arena.erase id).ids = arena.ids.erase id := by
  induction arena with
  | nil => rfl
  | cons e rest ih =>
    by_cases h : e.id = id
    case pos => simp [erase, ids, h]
    case neg => simpa [erase, ids, h, List.erase_cons] using ih

theorem erase_of_find?_none (h : find? arena id = none) : arena.erase id = arena := by
  apply List.eraseP_of_forall_not
  intro e he
  have : e.id ≠ id := fun hid => find?_eq_none.mp h (List.mem_map.mpr ⟨e, he, hid⟩)
  simpa using this

theorem find?_erase_of_ne (h : id ≠ id') : (arena.erase id).find? id' = find? arena id' := by
  induction arena with
  | nil => rfl
  | cons e rest ih =>
    rw [erase] at ih ⊢
    by_cases he : e.id = id
    case pos => simp [he, find?_cons, h]
    case neg => simp [he, find?_cons, ih]

theorem find?_append : find? (arena ++ [e]) id =
    (find? arena id).or (if e.id = id then some e.actor else none) := by
  induction arena with
  | nil => simp [find?_cons]; rfl
  | cons e' rest ih =>
    rw [List.cons_append, find?_cons, find?_cons, ih]
    split <;> simp

theorem ids_update : (arena.update id x).ids = arena.ids := by
  rw [ids, ids, update, List.map_map]
  apply List.map_congr_left
  intro e _
  simp only [Function.comp]
  split <;> rfl

theorem find?_update : (arena.update id x).find? id' =
    if id' = id then (find? arena id').map fun _ => x else find? arena id' := by
  induction arena with
  | nil => simp [update, find?]
  | cons e rest ih =>
    rw [update] at ih ⊢
    rw [List.map_cons, find?_cons, ih, find?_cons]
    by_cases h : id' = id
    case pos => by_cases he : e.id = id <;> simp [h, he]
    case neg => by_cases he : e.id = id <;> simp [h, he, Ne.symm h]

end Arena

end Statechart
