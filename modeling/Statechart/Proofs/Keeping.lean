import Statechart.Proofs.Macrostep
import Statechart.Proofs.Names

-- What can be said of everything that a turn journals, posts and comes to, wherever it breaks off:
-- first of all for a macrostep.

namespace Statechart

namespace Turn

variable {C α β : Type} {E E' : Entry C → Prop} {P P' : Post → Prop} {Q Q' : α → Prop}
  {R : β → Prop} {x : Turn C α} {f : α → Turn C β} {a : α}

structure Keeps (E : Entry C → Prop) (P : Post → Prop) (Q : α → Prop) (x : Turn C α) : Prop where
  entries {e : Entry C} : e ∈ x.entries → E e
  posts {p : Post} : p ∈ x.posts → P p
  value {a : α} : x.outcome = .ok a → Q a

theorem mem_entries_bind {e : Entry C} : e ∈ (x >>= f).entries ↔
    e ∈ x.entries ∨ ∃ a, x.outcome = .ok a ∧ e ∈ (f a).entries := by
  change e ∈ (Turn.bind x f).entries ↔ _
  rw [Turn.bind]
  cases hx : x.outcome <;> simp

theorem mem_posts_bind {p : Post} : p ∈ (x >>= f).posts ↔
    p ∈ x.posts ∨ ∃ a, x.outcome = .ok a ∧ p ∈ (f a).posts := by
  change p ∈ (Turn.bind x f).posts ↔ _
  rw [Turn.bind]
  cases hx : x.outcome <;> simp

namespace Keeps

theorem pure (h : Q a) : (Pure.pure a : Turn C α).Keeps E P Q where
  entries := nofun
  posts := nofun
  value ha := Except.ok.inj ha ▸ h

theorem bind (h : x.Keeps E P Q) (hf : ∀ a, Q a → (f a).Keeps E P R) :
    (x >>= f).Keeps E P R where
  entries he := by
    rcases mem_entries_bind.mp he with he | ⟨a, ha, he⟩
    · exact h.entries he
    · exact (hf a (h.value ha)).entries he
  posts hp := by
    rcases mem_posts_bind.mp hp with hp | ⟨a, ha, hp⟩
    · exact h.posts hp
    · exact (hf a (h.value ha)).posts hp
  value hb := by
    obtain ⟨a, ha, hb⟩ := bind_eq_ok.mp hb
    exact (hf a (h.value ha)).value hb

theorem imp (h : x.Keeps E P Q) (hQ : ∀ a, Q a → Q' a) : x.Keeps E P Q' :=
  ⟨h.entries, h.posts, fun ha => hQ _ (h.value ha)⟩

theorem trivial : x.Keeps (fun _ => True) (fun _ => True) (fun _ => True) :=
  ⟨fun _ => True.intro, fun _ => True.intro, fun _ => True.intro⟩

theorem noteAll {es : List (Entry C)} (h : ∀ e ∈ es, E e) :
    (Turn.noteAll es).Keeps E P fun _ => True := ⟨fun he => h _ he, nofun, fun _ => True.intro⟩

theorem note {e : Entry C} (h : E e) : (Turn.note e).Keeps E P fun _ => True :=
  noteAll (List.forall_mem_singleton.mpr h)

theorem postAll {ps : List Post} (h : ∀ p ∈ ps, P p) :
    (Turn.postAll ps : Turn C Unit).Keeps E P fun _ => True :=
  ⟨nofun, fun hp => h _ hp, fun _ => True.intro⟩

theorem post {p : Post} (h : P p) : (Turn.post p : Turn C Unit).Keeps E P fun _ => True :=
  postAll (List.forall_mem_singleton.mpr h)

theorem crash {k : Crash} : (Turn.crash k : Turn C α).Keeps E P Q := ⟨nofun, nofun, nofun⟩

-- What was posted is handed over.
theorem collect (h : x.Keeps E P Q) : x.collect.Keeps E P' fun y => Q y.1 where
  entries := h.entries
  posts := nofun
  value {y} hy := by
    cases hx : x.outcome with
    | error => simp [hx, Except.map] at hy
    | ok a =>
      obtain rfl : (a, x.posts) = y := by simpa [hx, Except.map] using hy
      exact h.value hx

theorem foldlM {γ : Type} {g : α → γ → Turn C α} {l : List γ}
    (hg : ∀ a, ∀ c ∈ l, Q a → (g a c).Keeps E P Q) (ha : Q a) :
    (l.foldlM g a).Keeps E P Q := by
  induction l generalizing a with
  | nil => exact pure ha
  | cons c rest ih =>
    rw [List.foldlM_cons]
    exact (hg a c List.mem_cons_self ha).bind fun b hb =>
      ih (fun a c hc => hg a c (List.mem_cons_of_mem _ hc)) hb

end Keeps

end Turn

-- The error that an entry of the journal is about.
def Entry.error? {C : Type} : Entry C → Option ExecutionError
  | reported err | warned (.guardFailed err) => some err
  | _ => none

-- What is demanded of every entry of the journal, of what is posted, and of every error.
structure Standards (C : Type) where
  entry : Entry C → Prop
  post : Post → Prop
  error : ExecutionError → Prop

namespace Standards

variable {C S : Type}

-- What cannot be avoided meets the standards.
structure Hold (R : Standards C) (r : Registry C S) : Prop where
  entry {e : Entry C} : (∀ err, e.error? = some err → R.error err) → R.entry e
  sent (e : Event) : R.post (.send e)
  failed (a e : String) (cause : ActionError) : R.error (.action a e cause)
  overflowed (e : String) : R.error (.delayOverflow e)
  limited (n : Nat) (e : String) : R.error (.microstepLimit n e)
  guarded {g : String} {guard : C → Event → Except GuardError Bool} {x : C} {e : Event}
    {cause : GuardError} : r.guards.find? g = some guard → guard x e = .error cause →
      R.error (.guard g e.name cause)

-- What has to be so, unless whatever goes wrong meets the standards.
def Grants (R : Standards C) (p : Prop) : Prop := p ∨ ∀ err, R.error err

end Standards

namespace Evaluation

variable {α β : Type} {F : ExecutionError → Prop} {P : α → Prop} {Q : β → Prop} {x : Evaluation α}

-- Whatever goes wrong in an evaluation is an `F`.
structure Keeps (F : ExecutionError → Prop) (P : α → Prop) (x : Evaluation α) : Prop where
  checks {g : GuardCheck} {err : ExecutionError} : g ∈ x.checks → g.error? = some err → F err
  failed {err : ExecutionError} : x.result = .error err → F err
  value {a : α} : x.result = .ok a → P a

namespace Keeps

theorem pure {a : α} (h : P a) : (Pure.pure a : Evaluation α).Keeps F P where
  checks := nofun
  failed := nofun
  value ha := Except.ok.inj ha ▸ h

theorem bind {f : α → Evaluation β} (h : x.Keeps F P) (hf : ∀ a, P a → (f a).Keeps F Q) :
    (x >>= f).Keeps F Q := by
  change (Evaluation.bind x f).Keeps F Q
  rw [Evaluation.bind]
  cases hx : x.result with
  | error err =>
    exact ⟨h.checks, fun he => Except.error.inj he ▸ h.failed hx, fun hb => by cases hb⟩
  | ok a =>
    have ha := hf a (h.value hx)
    refine ⟨fun hg => ?_, ha.failed, ha.value⟩
    exact (List.mem_append.mp hg).elim h.checks ha.checks

theorem foldlM {γ : Type} {f : α → γ → Evaluation α} {l : List γ} {a : α}
    (hf : ∀ a c, P a → (f a c).Keeps F P) (ha : P a) : (l.foldlM f a).Keeps F P := by
  induction l generalizing a with
  | nil => exact pure ha
  | cons c rest ih =>
    rw [List.foldlM_cons]
    exact (hf a c ha).bind fun _ hb => ih hb

theorem guardErrors (h : x.Keeps F P) : ∀ err ∈ x.guardErrors, F err := by
  intro err herr
  obtain ⟨g, hg, he⟩ := List.mem_filterMap.mp herr
  exact h.checks hg he

end Keeps

end Evaluation

section Macrostep

variable {C S : Type} {R : Standards C} {t : Tree} {r : Registry C S} {config : Config}
  {c : Configuration} {x : C} {e : Event} {eventless : Bool} {s : MachineState C}
  {policy : GuardPolicy} {u v : Transition} {us : List Transition}

namespace Selection

theorem mem_of_withoutConflicts (h : u ∈ withoutConflicts t c us) : u ∈ us := by
  have hgo (us kept : List Transition) (h : u ∈ us.foldl (keep t c) kept) : u ∈ kept ∨ u ∈ us := by
    induction us generalizing kept with
    | nil => exact .inl h
    | cons v rest ih =>
      rcases ih _ h with hk | hr
      · rw [keep] at hk
        split at hk
        · rcases List.mem_append.mp hk with hk | hk
          · exact .inl (List.mem_of_mem_filter hk)
          · exact .inr (List.mem_singleton.mp hk ▸ List.mem_cons_self)
        · exact .inl hk
      · exact .inr (List.mem_cons_of_mem _ hr)
  exact (hgo _ _ h).resolve_left List.not_mem_nil

variable (hold : R.Hold r) (ht : R.Grants (r.Provides t))
include hold ht

-- A guard that is registered fails as it says itself.
theorem passes_keeps (hu : ∃ n, u ∈ (t.node n).transitions) :
    (passes r policy c x e u).Keeps R.error fun _ => True := by
  have hcheck {name : String} {err : ExecutionError} (hg : u.guard = some (.named name))
      (h : (check r x e name).result = .error err) : R.error err := by
    rcases ht with hp | hall
    · obtain ⟨n, hn⟩ := hu
      obtain ⟨guard, hguard⟩ := Option.isSome_iff_exists.mp (hp.guard hn hg)
      rw [check, hguard] at h
      change (guard x e).mapError _ = _ at h
      cases hx : guard x e with
      | ok => simp [hx, Except.mapError] at h
      | error cause =>
        simp only [hx, Except.mapError, Except.error.injEq] at h
        exact h ▸ hold.guarded hguard hx
    · exact hall err
  rw [passes]
  split
  case h_1 => exact .pure trivial
  case h_2 => exact .pure trivial
  case h_3 name hg =>
    have hchecks {g : GuardCheck} {err : ExecutionError} (hmem : g ∈ [check r x e name])
        (he : g.error? = some err) : R.error err := by
      obtain rfl := List.mem_singleton.mp hmem
      refine hcheck hg ?_
      rw [GuardCheck.error?] at he
      split at he
      case h_1 h => exact Option.some.inj he ▸ h
      case h_2 => cases he
    simp only [evaluate]
    split
    case h_1 => exact ⟨hchecks, nofun, fun _ => trivial⟩
    case h_2 => exact ⟨hchecks, nofun, fun _ => trivial⟩
    case h_3 h =>
      refine ⟨hchecks, fun he => ?_, nofun⟩
      cases he
      exact hcheck hg h

theorem firstEnabled_keeps (hus : ∀ u ∈ us, ∃ n, u ∈ (t.node n).transitions) :
    (firstEnabled r policy c x e us).Keeps R.error
      fun o => ∀ u ∈ o, ∃ n, u ∈ (t.node n).transitions := by
  induction us with
  | nil => exact .pure nofun
  | cons v rest ih =>
    obtain ⟨hv, hrest⟩ := List.forall_mem_cons.mp hus
    refine (passes_keeps hold ht hv).bind fun passed _ => ?_
    cases passed
    · exact ih hrest
    · exact .pure fun u hu => Option.some.inj hu ▸ hv

theorem select_keeps : (select t r policy c x e eventless).Keeps R.error
    fun us => ∀ u ∈ us, ∃ n, u ∈ (t.node n).transitions := by
  refine (Evaluation.Keeps.foldlM
    (P := fun us => ∀ u ∈ us, ∃ n, u ∈ (t.node n).transitions) (fun found leaf hfound => ?_)
    (List.forall_mem_nil _)).bind fun us hus =>
      .pure fun u hu => hus u (mem_of_withoutConflicts hu)
  have hcandidates : ∀ u ∈ candidatesFrom t e eventless leaf,
      ∃ n, u ∈ (t.node n).transitions := by
    intro u hu
    obtain ⟨n, _, hu⟩ := List.mem_flatMap.mp hu
    exact ⟨n, candidates_subset _ hu⟩
  refine (firstEnabled_keeps hold ht hcandidates).bind fun o ho => .pure ?_
  cases o with
  | none => exact hfound
  | some u =>
    rw [addNew]
    split
    · exact hfound
    · exact List.forall_mem_append.mpr ⟨hfound, List.forall_mem_singleton.mpr (ho u rfl)⟩

end Selection

-- A choice that meets the standards, and whose microstep can be carried out.
def Choice.Meets (R : Standards C) (r : Registry C S) : Choice C → Prop
  | nothing => True
  | failed err => R.error err
  | step m => R.Grants (m.Known r)

structure Progress.Meets {σ : Type} (R : Standards C) (I : σ → Prop) (p : Progress σ C) : Prop where
  shell : I p.shell
  guardErrors : ∀ err ∈ p.guardErrors, R.error err
  error : ∀ err ∈ p.error, R.error err

-- The journal of a guard is about its own error.
theorem GuardCheck.error_of_mem_entries {g : GuardCheck} {entry : Entry C} {err : ExecutionError}
    (he : entry ∈ g.entries policy) (herr : entry.error? = some err) : g.error? = some err := by
  have hplain : entry ∉ (if g.isRegistered then [.guard g.guard g.event] else []) := by
    intro h
    split at h
    · cases List.mem_singleton.mp h
      cases herr
    · cases h
  cases hg : g.error? with
  | none => exact absurd (by cases policy <;> simpa [entries, hg] using he) hplain
  | some err' =>
    cases policy with
    | propagate => exact absurd (by simpa [entries, hg] using he) hplain
    | treatAsFalse =>
      simp only [entries, hg] at he
      obtain rfl := List.mem_singleton.mp ((List.mem_append.mp he).resolve_left hplain)
      exact herr

namespace Progress

variable {σ : Type} {I : σ → Prop} {p : Progress σ C}

theorem Meets.noteErrors {es : List ExecutionError} (hp : p.Meets R I)
    (hes : ∀ err ∈ es, R.error err) : (p.noteErrors es).Meets R I :=
  ⟨hp.shell, List.forall_mem_append.mpr ⟨hp.guardErrors, hes⟩, hp.error⟩

theorem Meets.fail {err : ExecutionError} (hp : p.Meets R I) (herr : R.error err) :
    (p.fail err).Meets R I :=
  ⟨hp.shell, hp.guardErrors, fun _ he => Option.some.inj he ▸ herr⟩

end Progress

-- Committing a microstep that can be carried out keeps an invariant of the shell.
def Commit.Meets {σ : Type} (R : Standards C) (r : Registry C S) (I : σ → Prop)
    (commit : Commit σ C) : Prop :=
  ∀ s m e, I s → R.Grants (m.Known r) →
    (commit s m e).Keeps R.entry R.post fun y => I y.1 ∧ ∀ err ∈ y.2, R.error err

namespace Macrostep

variable {σ : Type} {I : σ → Prop} {commit : Commit σ C} {p : Progress σ C} {choice : Choice C}

section Hold

variable (hold : R.Hold r) (ht : R.Grants (r.Provides t))
include hold

theorem observe_meets {x : Evaluation α} {P : α → Prop} (hx : x.Keeps R.error P) :
    (observe policy x : Turn C Unit).Keeps R.entry R.post fun _ => True := by
  refine .noteAll fun e he => hold.entry fun err herr => ?_
  obtain ⟨g, hg, he⟩ := List.mem_flatMap.mp he
  exact hx.checks hg (GuardCheck.error_of_mem_entries he herr)

omit hold in
theorem ofFault_meets {f : Except Fault (Microstep C)}
    (h : R.Grants ((∃ m, f = .ok m ∧ m.Known r) ∨ f = .error .illegal)) :
    (ofFault f).Keeps R.entry R.post (Choice.Meets R r) := by
  rcases h with (⟨m, rfl, hm⟩ | rfl) | hall
  · exact .pure (.inl hm)
  · exact .crash
  · match f with
    | .ok m => exact .pure (.inr hall)
    | .error (.failed err) => exact .pure (hall err)
    | .error .illegal => exact .crash

include ht

theorem choose_meets : (choose t r config s e eventless).Keeps R.entry R.post
    fun y => y.1.Meets R r ∧ ∀ err ∈ y.2, R.error err := by
  have hsel : (selection t r config s e eventless).Keeps R.error _ :=
    Selection.select_keeps hold ht
  rw [choose]
  refine (observe_meets hold hsel).bind fun _ _ => ?_
  split
  case h_1 err h => exact .pure ⟨hsel.failed h, List.forall_mem_nil _⟩
  case h_2 => exact .pure ⟨trivial, hsel.guardErrors⟩
  case h_3 us _ h =>
    have hus := hsel.value h
    refine (ofFault_meets (ht.imp_left fun hp => Microstep.take_known hp hus)).bind fun _ hm => ?_
    exact .pure ⟨hm, hsel.guardErrors⟩

omit hold ht in
theorem begin_meets (hc : commit.Meets R r I) (hp : p.Meets R I) (hchoice : choice.Meets R r)
    (hloop : ∀ shell m, (p.accept shell m).Meets R I →
      (loop t r config commit (p.accept shell m)).Keeps R.entry R.post (Progress.Meets R I)) :
    (begin t r config commit p choice).Keeps R.entry R.post (Progress.Meets R I) := by
  cases choice with
  | nothing => exact .pure hp
  | failed err => exact .pure (hp.fail hchoice)
  | step m =>
    refine (hc p.shell m p.current hp.shell hchoice).bind ?_
    rintro ⟨shell, refusal⟩ ⟨hshell, hrefusal⟩
    cases refusal with
    | some err => exact .pure ⟨hshell, hp.guardErrors, hrefusal⟩
    | none => exact hloop _ _ ⟨hshell, hp.guardErrors, hp.error⟩

-- By induction on the microsteps that are left, and between two of them on the events.
theorem loop_meets (hc : commit.Meets R r I) (hp : p.Meets R I) :
    (loop t r config commit p).Keeps R.entry R.post (Progress.Meets R I) := by
  induction p using (InvImage.wf
    (fun p : Progress σ C => (config.maxMicrosteps - p.microsteps, p.raised.length))
    (Prod.lex Nat.lt_wfRel Nat.lt_wfRel).wf).induction with
  | _ p ih =>
    cases hd : p.state.done
    case true =>
      rw [loop, if_pos hd]
      exact .pure hp
    case false =>
      rcases Nat.lt_or_ge p.microsteps config.maxMicrosteps with hl | hl
      case inr =>
        rw [loop, if_neg (by simp [hd]), if_pos hl]
        exact .pure (hp.fail (hold.limited ..))
      case inl =>
        have haccept {q : Progress σ C} (hq : q.microsteps = p.microsteps) (shell : σ)
            (m : Microstep C) (hm : (q.accept shell m).Meets R I) :
            (loop t r config commit (q.accept shell m)).Keeps R.entry R.post
              (Progress.Meets R I) := by
          refine ih _ (Prod.Lex.left _ _ ?_) hm
          change config.maxMicrosteps - (q.microsteps + 1) < config.maxMicrosteps - p.microsteps
          omega
        rw [loop_of_running hd hl]
        refine (choose_meets hold ht).bind ?_
        rintro ⟨choice, errors⟩ ⟨hchoice, herrors⟩
        cases choice with
        | failed | step => exact begin_meets hc (hp.noteErrors herrors) hchoice (haccept rfl)
        | nothing =>
          cases hr : p.raised with
          | nil => exact .pure (hp.noteErrors herrors)
          | cons e rest =>
            refine (choose_meets hold ht).bind ?_
            rintro ⟨choice, errors'⟩ ⟨hchoice, herrors'⟩
            have hq : Progress.Meets R I { p.noteErrors errors with
                current := e, raised := rest } :=
              ⟨hp.shell, (hp.noteErrors herrors).guardErrors, hp.error⟩
            cases choice with
            | failed | step =>
              exact begin_meets hc (hq.noteErrors herrors') hchoice (haccept rfl)
            | nothing =>
              refine ih _ (Prod.Lex.right _ ?_) (hq.noteErrors herrors')
              change rest.length < p.raised.length
              simp [hr]

theorem run_meets {trigger : Trigger} {shell : σ} (hc : commit.Meets R r I) (hs : I shell) :
    (run t r config commit shell s trigger).Keeps R.entry R.post (Progress.Meets R I) := by
  have hp (e : Event) : Progress.Meets R I { shell := shell, state := s, current := e } :=
    ⟨hs, List.forall_mem_nil _, nofun⟩
  cases trigger with
  | start =>
    rw [run]
    refine (ofFault_meets (ht.imp_left Microstep.initial_known)).bind fun choice hchoice => ?_
    exact begin_meets hc (hp _) hchoice fun _ _ => loop_meets hold ht hc
  | event e =>
    rw [run]
    refine (choose_meets hold ht).bind ?_
    rintro ⟨choice, errors⟩ ⟨hchoice, herrors⟩
    exact begin_meets hc ((hp e).noteErrors herrors) hchoice fun _ _ => loop_meets hold ht hc

end Hold

end Macrostep

-- When nothing is carried out, only planning can go wrong.
theorem Machine.run_meets {m : Machine C S} {trigger : Trigger} (hold : R.Hold m.registry)
    (ht : R.Grants (m.registry.Provides m.tree)) :
    (m.run s trigger).Keeps R.entry R.post fun step => ∀ err ∈ step.error, R.error err := by
  have hcommit : Commit.Meets R m.registry (fun _ => True) (noteActions (C := C)) :=
    fun _ _ _ _ _ => .pure ⟨trivial, nofun⟩
  exact (Macrostep.run_meets hold ht hcommit trivial).bind fun _ hp => .pure hp.error

end Macrostep

end Statechart
