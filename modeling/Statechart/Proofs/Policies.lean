import Statechart.Proofs.Conclusion

-- What a failing guard changes. Either it counts as not passing, or it ends the macrostep: until
-- the first guard fails the two policies make no difference.

namespace Statechart

namespace Config

-- A guard that fails does not pass, and that is all.
def lenient (config : Config) : Config := { config with guardPolicy := .treatAsFalse }

-- A guard that fails ends the macrostep.
def strict (config : Config) : Config := { config with guardPolicy := .propagate }

end Config

namespace Evaluation

variable {α β γ : Type} {x y : Evaluation α} {f : α → Evaluation β} {a : α}

theorem bind_of_ok (h : x.result = .ok a) :
    x >>= f = { checks := x.checks ++ (f a).checks, result := (f a).result } := by
  change Evaluation.bind x f = _
  rw [Evaluation.bind, h]

theorem result_bind_of_error {err : ExecutionError} (h : x.result = .error err) :
    (x >>= f).result = .error err := by
  change (Evaluation.bind x f).result = _
  rw [Evaluation.bind, h]

-- `x` goes past every failure, and `y` is the same up to the first of them, with which it ends.
structure EndsAtFirst (x y : Evaluation α) : Prop where
  answers : ∃ a, x.result = .ok a
  flawless : x.guardErrors = [] → y = x
  flawed : ∀ err, x.guardErrors.head? = some err → y.result = .error err

namespace EndsAtFirst

theorem pure (a : α) : EndsAtFirst (Pure.pure a) (Pure.pure a) where
  answers := ⟨a, rfl⟩
  flawless _ := rfl
  flawed _ h := by cases h

theorem bind {g : α → Evaluation β} (h : EndsAtFirst x y) (hf : ∀ a, EndsAtFirst (f a) (g a)) :
    EndsAtFirst (x >>= f) (y >>= g) := by
  obtain ⟨a, ha⟩ := h.answers
  obtain ⟨b, hb⟩ := (hf a).answers
  have herrors : (x >>= f).guardErrors = x.guardErrors ++ (f a).guardErrors := by
    rw [bind_of_ok ha]
    exact List.filterMap_append
  refine ⟨⟨b, by rw [bind_of_ok ha]; exact hb⟩, fun he => ?_, fun err he => ?_⟩
  · rw [herrors, List.append_eq_nil_iff] at he
    rw [h.flawless he.left, bind_of_ok ha, bind_of_ok ha, (hf a).flawless he.right]
  · rw [herrors] at he
    cases hx : x.guardErrors with
    | nil =>
      rw [hx, List.nil_append] at he
      rw [h.flawless hx, bind_of_ok ha]
      exact (hf a).flawed err he
    | cons err' rest =>
      rw [hx, List.cons_append, List.head?_cons] at he
      exact result_bind_of_error (h.flawed err (by rw [hx, List.head?_cons, he]))

theorem foldlM {f g : α → γ → Evaluation α} (hf : ∀ a c, EndsAtFirst (f a c) (g a c)) (l : List γ)
    (a : α) : EndsAtFirst (l.foldlM f a) (l.foldlM g a) := by
  induction l generalizing a with
  | nil => exact pure a
  | cons c rest ih =>
    rw [List.foldlM_cons, List.foldlM_cons]
    exact (hf a c).bind ih

end EndsAtFirst

end Evaluation

namespace Selection

open Evaluation

variable {C S : Type} (t : Tree) (r : Registry C S) (c : Configuration) (x : C) (e : Event)

theorem evaluate_endsAtFirst (name : String) :
    EndsAtFirst (evaluate r .treatAsFalse x e name) (evaluate r .propagate x e name) := by
  cases h : (check r x e name).result with
  | ok b =>
    have he (policy : GuardPolicy) :
        evaluate r policy x e name = { checks := [check r x e name], result := .ok b } := by
      cases policy <;> simp only [evaluate, h]
    rw [he, he]
    refine ⟨⟨b, rfl⟩, fun _ => rfl, fun err herr => ?_⟩
    simp [guardErrors, GuardCheck.error?, h] at herr
  | error err =>
    refine ⟨⟨false, ?_⟩, fun herr => ?_, fun err' herr => ?_⟩
    · simp only [evaluate, h]
    · simp [evaluate, guardErrors, GuardCheck.error?, h] at herr
    · obtain rfl : err = err' := by simpa [evaluate, guardErrors, GuardCheck.error?, h] using herr
      simp only [evaluate, h]

theorem passes_endsAtFirst (u : Transition) :
    EndsAtFirst (passes r .treatAsFalse c x e u) (passes r .propagate c x e u) := by
  unfold passes
  split
  · exact .pure _
  · exact .pure _
  · exact evaluate_endsAtFirst r x e _

theorem firstEnabled_endsAtFirst (us : List Transition) :
    EndsAtFirst (firstEnabled r .treatAsFalse c x e us) (firstEnabled r .propagate c x e us) := by
  induction us with
  | nil => exact .pure none
  | cons u rest ih =>
    refine (passes_endsAtFirst r c x e u).bind fun b => ?_
    cases b with
    | true => exact .pure (some u)
    | false => exact ih

theorem enabled_endsAtFirst (eventless : Bool) :
    EndsAtFirst (enabled t r .treatAsFalse c x e eventless)
      (enabled t r .propagate c x e eventless) :=
  .foldlM (fun _ _ => (firstEnabled_endsAtFirst r c x e _).bind fun _ => .pure _) _ _

end Selection

namespace Macrostep

variable {C S σ : Type} (t : Tree) (r : Registry C S) (config : Config) (commit : Commit σ C)

-- After `ds`, of which nothing failed, both policies look for the transitions that are enabled at
-- `q`. The first guard that fails there fails with `err`; where it does not count, the macrostep
-- goes on to do `all`.
inductive Strikes (shell : σ) (s : MachineState C) (trigger : Trigger) (all : List (Deed C)) :
    List (Deed C) → Progress σ C → ExecutionError → Prop
  | intro {ds q eventless us err} :
      Seeks t r config.lenient commit shell s trigger ds q eventless →
      Seeks t r config.strict commit shell s trigger ds q eventless →
      q.guardErrors = [] →
      (selection t r config.lenient q.state q.current eventless).result = .ok us →
      (selection t r config.lenient q.state q.current eventless).guardErrors.head? = some err →
      ds ++ [.looked q.state q.current eventless us] <+: all →
      Strikes shell s trigger all ds q err

-- How the stricter policy fares where the other one has done `all` and met `errors`. Without any it
-- has come as far, which `same` says, and else the first of them has struck.
structure Agrees (shell : σ) (s : MachineState C) (trigger : Trigger) (all : List (Deed C))
    (errors : List ExecutionError) (same : Prop) : Prop where
  flawless : errors = [] → same
  flawed : ∀ err, errors.head? = some err →
    ∃ ds q, Strikes t r config commit shell s trigger all ds q err

variable {t r config commit} {shell shell' : σ} {s : MachineState C} {trigger : Trigger}
  {ds ds' all : List (Deed C)} {p q : Progress σ C} {us : List Transition} {eventless : Bool}
  {x : Except Fault (Microstep C)} {err : ExecutionError} {o : Except Crash (Progress σ C)}
  {errors : List ExecutionError} {same same' : Prop}

theorem selection_endsAtFirst (t : Tree) (r : Registry C S) (config : Config) (s : MachineState C)
    (e : Event) (eventless : Bool) : Evaluation.EndsAtFirst
      (selection t r config.lenient s e eventless) (selection t r config.strict s e eventless) :=
  (Selection.enabled_endsAtFirst t r s.configuration s.context e eventless).bind fun _ => .pure _

theorem Strikes.prolong (h : Strikes t r config commit shell s trigger ds ds' q err)
    (hp : ds <+: all) : Strikes t r config commit shell s trigger all ds' q err := by
  cases h with
  | intro hl hs he hsel herr hpre => exact .intro hl hs he hsel herr (hpre.trans hp)

namespace Agrees

theorem imp (h : Agrees t r config commit shell s trigger all errors same) (hs : same → same') :
    Agrees t r config commit shell s trigger all errors same' where
  flawless he := hs (h.flawless he)
  flawed := h.flawed

theorem prolong (h : Agrees t r config commit shell s trigger ds errors same) (hp : ds <+: all) :
    Agrees t r config commit shell s trigger all errors same where
  flawless := h.flawless
  flawed err he := by
    obtain ⟨ds', q, hq⟩ := h.flawed err he
    exact ⟨ds', q, hq.prolong hp⟩

theorem flawlessly (h : same) : Agrees t r config commit shell s trigger all [] same where
  flawless _ := h
  flawed _ he := by cases he

end Agrees

-- Unless one of the guards is the first to fail, both policies see the same.
theorem Seeks.look (hq : Seeks t r config.lenient commit shell s trigger ds q eventless)
    (h : Agrees t r config commit shell s trigger ds q.guardErrors same)
    (hseeks : same → Seeks t r config.strict commit shell s trigger ds q eventless)
    (hs : (selection t r config.lenient q.state q.current eventless).result = .ok us) :
    Agrees t r config commit shell s trigger (ds ++ [.looked q.state q.current eventless us])
      (q.noteErrors (selection t r config.lenient q.state q.current
        eventless).guardErrors).guardErrors
      (same ∧ selection t r config.strict q.state q.current eventless =
        selection t r config.lenient q.state q.current eventless) := by
  have hends := selection_endsAtFirst t r config q.state q.current eventless
  refine ⟨fun he => ?_, fun err he => ?_⟩
  · obtain ⟨hnone, hnew⟩ := List.append_eq_nil_iff.mp he
    exact ⟨h.flawless hnone, hends.flawless hnew⟩
  · cases hnone : q.guardErrors with
    | nil =>
      -- The failure is one of those that this look has added.
      rw [Progress.noteErrors, hnone, List.nil_append] at he
      exact ⟨ds, q, .intro hq (hseeks (h.flawless hnone)) hnone hs he (List.prefix_refl _)⟩
    | cons err' rest =>
      rw [Progress.noteErrors, hnone, List.cons_append, List.head?_cons] at he
      obtain ⟨ds', q', hstrikes⟩ := h.flawed err (by rw [hnone, List.head?_cons, he])
      exact ⟨ds', q', hstrikes.prolong (List.prefix_append ..)⟩

theorem Seeks.propose (hq : Seeks t r config.lenient commit shell s trigger ds q eventless)
    (h : Agrees t r config commit shell s trigger ds q.guardErrors
      (Seeks t r config.strict commit shell s trigger ds q eventless))
    (hs : (selection t r config.lenient q.state q.current eventless).result = .ok us)
    (hus : us ≠ []) :
    Agrees t r config commit shell s trigger (ds ++ [.looked q.state q.current eventless us])
      (q.noteErrors (selection t r config.lenient q.state q.current
        eventless).guardErrors).guardErrors
      (Proposes t r config.strict commit shell s trigger
        (ds ++ [.looked q.state q.current eventless us])
        (q.noteErrors (selection t r config.lenient q.state q.current eventless).guardErrors) us
        (attempt t r q us)) := by
  refine (hq.look h id hs).imp fun ⟨hseeks, hsel⟩ => ?_
  rw [← hsel] at hs ⊢
  exact .enabled hseeks hs hus

section Reached

variable {e : Event} {rest : List Event}
  (hr : Reaches t r config.lenient commit shell s trigger ds p)
  (h : Agrees t r config commit shell s trigger ds p.guardErrors
    (Reaches t r config.strict commit shell s trigger ds p))
include hr h

theorem settled_agrees (hset : Settled t r config.lenient p) :
    Agrees t r config commit shell s trigger (ds ++ [.looked p.state p.current true []])
      (p.noteErrors (selection t r config.lenient p.state p.current true).guardErrors).guardErrors
      (Reaches t r config.strict commit shell s trigger ds p ∧ Settled t r config.strict p ∧
        selection t r config.strict p.state p.current true =
          selection t r config.lenient p.state p.current true) := by
  have hd := hset.running
  have hl := hset.below_limit
  have hseeks := Seeks.always hr hd hl
  have hlook := hseeks.look h (fun hr => .always hr hd hl) hset.none_enabled
  refine hlook.imp fun ⟨hr, hsel⟩ => ⟨hr, ⟨hd, hl, ?_⟩, hsel⟩
  rw [hsel]
  exact hset.none_enabled

theorem raised_agrees (hset : Settled t r config.lenient p) (hq : p.raised = e :: rest) :
    Agrees t r config commit shell s trigger (ds ++ [.looked p.state p.current true []])
      (p.noteErrors (selection t r config.lenient p.state p.current true).guardErrors).guardErrors
      (Seeks t r config.strict commit shell s trigger (ds ++ [.looked p.state p.current true []])
        { p.noteErrors (selection t r config.lenient p.state p.current true).guardErrors with
          current := e, raised := rest } false) := by
  refine (settled_agrees hr h hset).imp fun ⟨hr, hset, hsel⟩ => ?_
  rw [← hsel]
  exact .raised hr hset hq

theorem skip_agrees (hset : Settled t r config.lenient p) (hq : p.raised = e :: rest)
    (hs : (selection t r config.lenient p.state e false).result = .ok []) :
    Agrees t r config commit shell s trigger
      (ds ++ [.looked p.state p.current true [], .looked p.state e false []])
      (dequeue t r config.lenient p e rest).guardErrors
      (Reaches t r config.strict commit shell s trigger
        (ds ++ [.looked p.state p.current true [], .looked p.state e false []])
        (dequeue t r config.lenient p e rest)) := by
  have hseeks := Seeks.raised hr hset hq
  have hlook := hseeks.look (settled_agrees hr h hset) (fun ⟨hr, hset, hsel⟩ => by
    rw [← hsel]
    exact .raised hr hset hq) hs
  rw [List.append_cons ds]
  refine hlook.imp fun ⟨⟨hr, hset, hsel⟩, hsel'⟩ => ?_
  have hdequeue : dequeue t r config.strict p e rest = dequeue t r config.lenient p e rest := by
    rw [dequeue, dequeue, hsel]
    exact congrArg _ (congrArg _ hsel')
  have hs' : (selection t r config.strict p.state e false).result = .ok [] := hsel' ▸ hs
  rw [← List.append_cons, ← hdequeue]
  exact hr.proceeds (.skip (.raised hset hq hs'))

end Reached

-- By induction on the rounds, each of which may look for transitions twice.
theorem reaches_agrees (h : Reaches t r config.lenient commit shell s trigger ds p) :
    Agrees t r config commit shell s trigger ds p.guardErrors
      (Reaches t r config.strict commit shell s trigger ds p) := by
  induction h with
  | begins hb =>
    cases hb with
    | start hm hc => exact .flawlessly (.begins (.start hm hc))
    | @event e us m shell' hs hus hm hc =>
      have hq : Seeks t r config.lenient commit shell s (.event e) [] _ false := .first
      have hp := hq.propose (.flawlessly .first) hs hus
      exact (hp.imp fun hp => reaches_of_proposes hp hm hc).prolong (List.prefix_append ..)
  | @proceeds ds p ds' q hr hp ih =>
    cases hp with
    | microstep hl hus hm hc =>
      rw [← List.append_assoc]
      cases hl with
      | always hd hl hs hus =>
        have hseeks := Seeks.always hr hd hl
        have hp := hseeks.propose (ih.imp fun hr => .always hr hd hl) hs hus
        exact (hp.imp fun hp => reaches_of_proposes hp hm hc).prolong (List.prefix_append ..)
      | raised hset hq hs =>
        have hseeks := Seeks.raised hr hset hq
        have hp := hseeks.propose (raised_agrees hr ih hset hq) hs hus
        rw [List.append_cons ds]
        exact (hp.imp fun hp => reaches_of_proposes hp hm hc).prolong (List.prefix_append ..)
    | skip hl =>
      cases hl with
      | always _ _ _ hus => contradiction
      | raised hset hq hs => exact skip_agrees hr ih hset hq hs

theorem seeks_agrees (h : Seeks t r config.lenient commit shell s trigger ds q eventless) :
    Agrees t r config commit shell s trigger ds q.guardErrors
      (Seeks t r config.strict commit shell s trigger ds q eventless) := by
  cases h with
  | first => exact .flawlessly .first
  | always hr hd hl => exact (reaches_agrees hr).imp fun hr => .always hr hd hl
  | raised hr hset hq => exact raised_agrees hr (reaches_agrees hr) hset hq

theorem proposes_agrees (h : Proposes t r config.lenient commit shell s trigger ds q us x) :
    Agrees t r config commit shell s trigger ds q.guardErrors
      (Proposes t r config.strict commit shell s trigger ds q us x) := by
  cases h with
  | start => exact .flawlessly .start
  | enabled hq hs hus => exact hq.propose (seeks_agrees hq) hs hus

-- However a macrostep ends, without a failure of a guard it ends the same under both policies.
theorem concludes_agrees (h : Concludes t r config.lenient commit shell s trigger ds o) :
    ∃ errors, (∀ p, o = .ok p → p.guardErrors = errors) ∧
      Agrees t r config commit shell s trigger ds errors
        (Concludes t r config.strict commit shell s trigger ds o) := by
  cases h with
  | @idle e hs =>
    have hq : Seeks t r config.lenient commit shell s (.event e) [] _ false := .first
    refine ⟨_, ?_, (hq.look (.flawlessly .first) id hs).imp fun ⟨_, hsel⟩ => ?_⟩
    · exact fun p hp => by cases hp; rfl
    · have hopening : opening t r config.strict shell s e = opening t r config.lenient shell s e :=
        congrArg _ (congrArg Evaluation.guardErrors hsel)
      rw [← hopening]
      exact .idle (hsel ▸ hs)
  | done hr hd =>
    refine ⟨_, ?_, (reaches_agrees hr).imp fun hr => .done hr hd⟩
    exact fun p hp => by cases hp; rfl
  | resting hc =>
    cases hc with
    | intro hr hset hq =>
      refine ⟨_, ?_, (settled_agrees hr (reaches_agrees hr) hset).imp fun ⟨hr, hset, hsel⟩ => ?_⟩
      · exact fun p hp => by cases hp; rfl
      · rw [← hsel]
        exact .resting ⟨hr, hset, hq⟩
  | failed hf =>
    cases hf with
    | guard hq hs =>
      -- No failure of a guard ends the macrostep here.
      obtain ⟨us, hus⟩ := (selection_endsAtFirst t r config _ _ _).answers
      cases hs.symm.trans hus
    | planning hp hx =>
      refine ⟨_, ?_, (proposes_agrees hp).imp fun hp => .failed (.planning hp hx)⟩
      exact fun p hp => by cases hp; rfl
    | limit hr hd hl =>
      refine ⟨_, ?_, (reaches_agrees hr).imp fun hr => .failed (.limit hr hd hl)⟩
      exact fun p hp => by cases hp; rfl
  | refused hp hx hc =>
    refine ⟨_, ?_, (proposes_agrees hp).imp fun hp => .refused hp hx hc⟩
    exact fun p hp => by cases hp; rfl
  | illegal hp hx =>
    refine ⟨_, ?_, (proposes_agrees hp).imp fun hp => .illegal hp hx⟩
    exact fun p hp => by cases hp
  | broken hp hx hc =>
    refine ⟨_, ?_, (proposes_agrees hp).imp fun hp => .broken hp hx hc⟩
    exact fun p hp => by cases hp

-- Under the stricter policy the macrostep ends where the first guard fails.
theorem concludes_of_strikes (h : Strikes t r config commit shell s trigger all ds q err) :
    Concludes t r config.strict commit shell s trigger ds (.ok (q.fail err)) := by
  cases h with
  | intro _ hq _ _ herr _ =>
    exact .failed (.guard hq ((selection_endsAtFirst t r config _ _ _).flawed _ herr))

-- Where no guard fails the policies make no difference. Else the stricter one ends the macrostep
-- with the first failure, after the microsteps that the other one commits before it comes to that
-- guard.
theorem run_policies (h : (run t r config.lenient commit shell s trigger).outcome = .ok p) :
    (∃ all, Concludes t r config.lenient commit shell s trigger all (.ok p)) ∧
    ∀ all, Concludes t r config.lenient commit shell s trigger all (.ok p) →
      (p.guardErrors = [] → (run t r config.strict commit shell s trigger).outcome = .ok p ∧
        Concludes t r config.strict commit shell s trigger all (.ok p)) ∧
      ∀ err, p.guardErrors.head? = some err →
        ∃ ds q, (run t r config.strict commit shell s trigger).outcome = .ok (q.fail err) ∧
          Concludes t r config.strict commit shell s trigger ds (.ok (q.fail err)) ∧
          Strikes t r config commit shell s trigger all ds q err ∧
          ds.flatMap Deed.microsteps <+: all.flatMap Deed.microsteps ∧
          q.microsteps = (ds.flatMap Deed.microsteps).length ∧
          q.state = (ds.flatMap Deed.microsteps).foldl MachineState.after s := by
  refine ⟨h ▸ run_concludes t r config.lenient commit shell s trigger, fun all hall => ?_⟩
  obtain ⟨errors, herrors, hagrees⟩ := concludes_agrees hall
  rw [herrors p rfl]
  refine ⟨fun he => ?_, fun err he => ?_⟩
  · have hc := hagrees.flawless he
    exact ⟨run_of_concludes hc, hc⟩
  · obtain ⟨ds, q, hstrikes⟩ := hagrees.flawed err he
    have hc := concludes_of_strikes hstrikes
    have hcount := (concludes_tally hc).right _ rfl
    refine ⟨ds, q, run_of_concludes hc, hc, hstrikes, ?_, hcount, ?_⟩
    · cases hstrikes with
      | intro _ _ _ _ _ hp => exact ((List.prefix_append ..).trans hp).flatMap _
    · cases hstrikes with
      | intro hq => exact seeks_state hq

-- A macrostep that breaks off where failures do not count breaks off under the stricter policy,
-- too, unless a guard fails before it comes to that.
theorem run_policies_crash {k : Crash}
    (h : (run t r config.lenient commit shell s trigger).outcome = .error k) :
    (run t r config.strict commit shell s trigger).outcome = .error k ∨
      ∃ all ds q err, Concludes t r config.lenient commit shell s trigger all (.error k) ∧
        Strikes t r config commit shell s trigger all ds q err ∧
        (run t r config.strict commit shell s trigger).outcome = .ok (q.fail err) := by
  obtain ⟨all, hall⟩ := run_concludes t r config.lenient commit shell s trigger
  rw [h] at hall
  obtain ⟨errors, _, hagrees⟩ := concludes_agrees hall
  cases errors with
  | nil => exact .inl (run_of_concludes (hagrees.flawless rfl))
  | cons err rest =>
    obtain ⟨ds, q, hstrikes⟩ := hagrees.flawed err rfl
    exact .inr ⟨all, ds, q, err, hall, hstrikes, run_of_concludes (concludes_of_strikes hstrikes)⟩

section Gate

-- Nobody can tell whether the gate sticks.
def gate : Definition.State :=
  .mk { key := "m", initial := some "shut" } [
    .mk {
      key := "shut"
      transitions := [
        (.event "PUSH", { targets := ["stuck"], guard := some (.named "sticks") }),
        (.event "PUSH", { targets := ["open"] })] } [],
    .mk { key := "open" } [],
    .mk { key := "stuck" } []]

def gateTree : Tree := ((Definition.Layout.ofState "m" gate).lower "m").value

def gateRegistry : Registry Unit Unit where
  guards := .ofList [("sticks", fun _ _ => .error ⟨"no sensor"⟩)]

def gateError : ExecutionError := .guard "sticks" "PUSH" ⟨"no sensor"⟩

-- Either the gate opens all the same, or the push fails.
theorem run_policies_gate : ∃ p q : Progress (List Planned) Unit,
    (run gateTree gateRegistry (Config.lenient {}) Machine.noteActions []
      (.plain (.ofList [0, 1])) (.event ⟨"PUSH", .null⟩)).outcome = .ok p ∧
    p.state = .plain (.ofList [0, 2]) ∧ p.error = none ∧ p.guardErrors = [gateError] ∧
    (run gateTree gateRegistry (Config.strict {}) Machine.noteActions []
      (.plain (.ofList [0, 1])) (.event ⟨"PUSH", .null⟩)).outcome = .ok (q.fail gateError) := by
  obtain ⟨us, hus⟩ : ∃ us, us = (gateTree.node 1).transitions.drop 1 := ⟨_, rfl⟩
  obtain ⟨m, hm, hc, hh, hd, hr⟩ : ∃ m, Microstep.take gateTree gateRegistry
      ⟨"PUSH", .null⟩ (.ofList [0, 1]) () ∅ us = .ok m ∧
        m.configuration = .ofList [0, 2] ∧ m.history = ∅ ∧ m.done = false ∧ m.raised = [] := by
    rw [hus]
    exact Microstep.exists_eq_ok (by decide +kernel)
  have hsel : (selection gateTree gateRegistry (Config.lenient {}) (.plain (.ofList [0, 1]))
      ⟨"PUSH", .null⟩ false).result = .ok us := by
    rw [hus]
    exact Evaluation.eq_ok_of_toOption (by decide +kernel)
  have herrors : (selection gateTree gateRegistry (Config.lenient {}) (.plain (.ofList [0, 1]))
      ⟨"PUSH", .null⟩ false).guardErrors = [gateError] := by decide +kernel
  obtain ⟨p, hp, hst, hcur, hq, hn, he⟩ : ∃ p, Reaches gateTree gateRegistry (Config.lenient {})
      Machine.noteActions [] (.plain (.ofList [0, 1])) (.event ⟨"PUSH", .null⟩)
        ([.looked (.plain (.ofList [0, 1])) ⟨"PUSH", .null⟩ false us, .committed m]) p ∧
      p.state = .plain (.ofList [0, 2]) ∧ p.current = ⟨"PUSH", .null⟩ ∧ p.raised = [] ∧
      p.microsteps = 1 ∧ p.guardErrors = [gateError] := by
    refine ⟨_, .begins (.event hsel (by rw [hus]; decide +kernel) hm rfl), ?_, rfl, hr, rfl,
      herrors⟩
    rw [Progress.accept_state, opening_state, MachineState.plain_after hc hh hd]
  have hset : Settled gateTree gateRegistry (Config.lenient {}) p :=
    ⟨hst ▸ rfl, hn ▸ show 1 < 1000 by decide, by
      rw [hst, hcur]
      exact Evaluation.eq_ok_of_toOption (by decide +kernel)⟩
  have hnone : (selection gateTree gateRegistry (Config.lenient {}) p.state p.current
      true).guardErrors = [] := by
    rw [hst, hcur]
    decide +kernel
  have hc := Completes.intro hp hset hq
  rw [hnone, Progress.noteErrors_nil] at hc
  obtain ⟨h, _, hflawless, _⟩ := run_of_completes hc
  obtain ⟨_, hall⟩ := run_policies h
  obtain ⟨_, q, hstrict, _⟩ := (hall _ (.resting hc)).right gateError (by rw [he]; rfl)
  exact ⟨p, q, h, hst, hflawless, he, hstrict⟩

end Gate

end Macrostep

end Statechart
