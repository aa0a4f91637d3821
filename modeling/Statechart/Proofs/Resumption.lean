import Statechart.Proofs.Lowering
import Statechart.Proofs.Planning
import Statechart.Proofs.Timers

-- What brings a restored configuration back to life: of all that entering it plans, the delayed
-- events and the invocations, and nothing else.

namespace Statechart

variable {C S : Type} {t : Tree} {r : Registry C S} {e : Event} {c : Configuration} {x : C}
  {n : NodeIndex} {p q : Plan C}

-- Actions that keep something going for as long as their node is active.
def Planned.arms : Planned → Bool
  | send _ _ delay _ _ => delay.isSome
  | spawn _ _ owner _ => owner.isSome
  | _ => false

-- How long a delay is. A named one is computed from the context and the event.
def Delay.duration? (r : Registry C S) (e : Event) (x : C) : Delay → Option Duration
  | fixed d => some d
  | named name => (r.delays.find? name).map fun compute => compute x e

-- The delayed event that an entry action of `n` sends, if it is one that does.
def Action.armed (r : Registry C S) (e : Event) (x : C) (n : NodeIndex) : Action → Option Planned
  | send s => do
    let d ← (← s.delay).duration? r e x
    some (.send (s.event.getD e) s.target (some d) s.id n)
  | _ => none

-- What is kept going while `n` is active.
def Tree.armed (t : Tree) (r : Registry C S) (e : Event) (x : C) (n : NodeIndex) : List Planned :=
  (t.node n).entry.filterMap (Action.armed r e x n) ++
    (t.node n).invocations.map fun i => .spawn i.service i.id (some n) i.autoForward

-- No entry action of an active node is an assignment.
def Registry.AssignsNothing (r : Registry C S) (t : Tree) (c : Configuration) : Prop :=
  ∀ n ∈ c, ∀ name, .named name ∈ (t.node n).entry →
    ∀ update, r.actions.find? name ≠ some (.assign update)

namespace Plan

-- `y` plans the entries of some nodes in the context `x`, and `z` brings the same nodes back to
-- life. Entering them may fail for an action that bringing them back has no use for.
inductive Follows (x : C) :
    Except ExecutionError (Plan C) → Except ExecutionError (Plan C) → Prop
  | planned {p q : Plan C} : p.context = x → q.context = x →
      q.actions = p.actions.filter Planned.arms → Follows x (.ok p) (.ok q)
  | failed {err} : Follows x (.error err) (.error err)
  | unarmed {name z} : Follows x (.error (.unknownAction name)) z

namespace Follows

variable {y z : Except ExecutionError (Plan C)} {b : Planned}

theorem of_ok (h : Follows x (.ok p) z) :
    ∃ q, z = .ok q ∧ q.actions = p.actions.filter Planned.arms := by
  cases h with
  | planned _ _ ha => exact ⟨_, rfl, ha⟩

theorem of_error {err : ExecutionError} (h : Follows x (.error err) z) :
    z = .error err ∨ ∃ name, err = .unknownAction name := by
  cases h with
  | failed => exact .inl rfl
  | unarmed => exact .inr ⟨_, rfl⟩

theorem bind {f g : Plan C → Except ExecutionError (Plan C)} (h : Follows x y z)
    (hfg : ∀ p q, Follows x (.ok p) (.ok q) → Follows x (f p) (g q)) :
    Follows x (y >>= f) (z >>= g) := by
  cases h with
  | planned hp hq ha => exact hfg _ _ (.planned hp hq ha)
  | failed => exact .failed
  | unarmed => exact .unarmed

theorem foldlM {α : Type} {f g : Plan C → α → Except ExecutionError (Plan C)} {l : List α}
    (h : Follows x (.ok p) (.ok q))
    (hfg : ∀ a ∈ l, ∀ p q, Follows x (.ok p) (.ok q) → Follows x (f p a) (g q a)) :
    Follows x (l.foldlM f p) (l.foldlM g q) := by
  induction l generalizing p q with
  | nil => exact h
  | cons a rest ih =>
    rw [List.foldlM_cons, List.foldlM_cons]
    exact (hfg a List.mem_cons_self p q h).bind fun p q h =>
      ih h fun b hb => hfg b (List.mem_cons_of_mem a hb)

theorem push (h : Follows x (.ok p) (.ok q)) (hb : b.arms = true) :
    Follows x (.ok (p.push b)) (.ok (q.push b)) := by
  cases h with
  | planned hp hq ha => exact .planned hp hq (by simp [Plan.push, ha, hb])

theorem skip (h : Follows x (.ok p) (.ok q)) (hb : b.arms = false) :
    Follows x (.ok (p.push b)) (.ok q) := by
  cases h with
  | planned hp hq ha => exact .planned hp hq (by simp [Plan.push, ha, hb])

theorem raise (h : Follows x y z) (es : Plan C → List Event) :
    Follows x (y >>= fun p => pure { p with raised := es p }) z := by
  cases h with
  | planned hp hq ha => exact .planned hp hq ha
  | failed => exact .failed
  | unarmed => exact .unarmed

theorem invoke (h : Follows x (.ok p) (.ok q)) :
    Follows x (.ok (p.invoke t n)) (.ok (q.invoke t n)) := by
  cases h with
  | planned hp hq ha =>
    refine .planned hp hq ?_
    simp only [Plan.invoke, ha, List.filter_append, List.append_cancel_left_eq]
    rw [eq_comm, List.filter_eq_self, List.forall_mem_map]
    exact fun _ _ => rfl

end Follows

variable {a : Action} {actions : List Action}

theorem add_skips (h : Follows x (.ok p) (.ok q)) (hd : a.isDelayedSend = false)
    (ha : ∀ name, a = .named name → ∀ update, r.actions.find? name ≠ some (.assign update)) :
    Follows x (add r e n p a) (.ok q) := by
  cases a with
  | named name =>
    simp only [add]
    split
    case h_1 update hu => exact absurd hu (ha name rfl update)
    case h_2 => exact h.skip rfl
    case h_3 => exact .unarmed
  | raise event => exact h.raise fun p => p.raised ++ [event]
  | send s =>
    have hs : s.delay = none := by simpa [Action.isDelayedSend] using hd
    simp only [add, hs]
    exact h.skip rfl
  | _ => exact h.skip rfl

theorem add_follows (h : Follows x (.ok p) (.ok q)) (hd : a.isDelayedSend = true) :
    Follows x (add r e n p a) (add r e n q a) := by
  cases a with
  | send s =>
    obtain ⟨d, hs⟩ : ∃ d, s.delay = some d := Option.isSome_iff_exists.mp hd
    have hc : p.context = q.context := by
      cases h with
      | planned hp hq _ => exact hp.trans hq.symm
    simp only [add, hs]
    cases d with
    | fixed d => exact h.push rfl
    | named name =>
      cases hf : r.delays.find? name with
      | none =>
        simp only [Option.mapM_some, delay, hf]
        exact .failed
      | some compute =>
        simp only [Option.mapM_some, delay, hf, hc]
        exact h.push rfl
  | _ => cases hd

theorem addAll_follows (h : Follows x (.ok p) (.ok q)) (ha : ∀ name, .named name ∈ actions →
      ∀ update, r.actions.find? name ≠ some (.assign update)) :
    Follows x (addAll r e n p actions) (addAll r e n q (actions.filter (·.isDelayedSend))) := by
  induction actions generalizing p q with
  | nil => exact h
  | cons a rest ih =>
    have ih {p q} (h : Follows x (.ok p) (.ok q)) :=
      ih h fun name hn => ha name (List.mem_cons_of_mem a hn)
    rw [addAll, List.foldlM_cons]
    cases hd : a.isDelayedSend
    case true =>
      rw [List.filter_cons_of_pos hd, addAll, List.foldlM_cons]
      exact (add_follows h hd).bind fun _ _ => ih
    case false =>
      rw [List.filter_cons_of_neg (by simp [hd])]
      have hskip : Follows x (add r e n p a) (.ok q) :=
        add_skips h hd fun name hn => ha name (hn ▸ List.mem_cons_self)
      exact hskip.bind (g := fun q => addAll r e n q _) fun _ _ => ih

theorem enterNode_follows (h : Follows x (.ok p) (.ok q)) (ha : ∀ name,
      .named name ∈ (t.node n).entry → ∀ update, r.actions.find? name ≠ some (.assign update)) :
    Follows x (Microstep.enterNode t r e p n) (resume r e t q n) :=
  ((addAll_follows h ha).bind fun _ _ h => h.invoke).raise _

-- Steps that keep the context and each plan something of their own.
theorem foldlM_plans {α : Type} {f : Plan C → α → Except ExecutionError (Plan C)}
    {g : α → List Planned} {l : List α} (hf : ∀ a ∈ l, ∀ p q, p.context = x → f p a = .ok q →
      q.context = x ∧ q.actions = p.actions ++ g a) (hp : p.context = x)
    (h : l.foldlM f p = .ok q) : q.context = x ∧ q.actions = p.actions ++ l.flatMap g := by
  induction l generalizing p with
  | nil =>
    cases h
    exact ⟨hp, by simp⟩
  | cons a rest ih =>
    obtain ⟨p₁, h₁, h⟩ := Microstep.bind_eq_ok.mp h
    obtain ⟨hp₁, ha₁⟩ := hf a List.mem_cons_self p p₁ hp h₁
    obtain ⟨hq, ha⟩ := ih (fun b hb => hf b (List.mem_cons_of_mem a hb)) hp₁ h
    exact ⟨hq, by simp [ha, ha₁]⟩

theorem add_armed (hd : a.isDelayedSend = true) (hp : p.context = x)
    (h : add r e n p a = .ok q) :
    q.context = x ∧ q.actions = p.actions ++ (a.armed r e x n).toList := by
  cases a with
  | send s =>
    obtain ⟨d, hs⟩ : ∃ d, s.delay = some d := Option.isSome_iff_exists.mp hd
    simp only [add, hs] at h
    cases d with
    | fixed d =>
      cases h
      exact ⟨hp, by simp [push, Action.armed, hs, Delay.duration?]⟩
    | named name =>
      cases hf : r.delays.find? name with
      | none => simp [delay, hf, Functor.map, Except.map, bind, Except.bind] at h
      | some compute =>
        simp only [Option.mapM_some, delay, hf] at h
        cases h
        exact ⟨hp, by simp [push, Action.armed, hs, Delay.duration?, hf, hp]⟩
  | _ => cases hd

theorem armed_of_not_delayed (hd : a.isDelayedSend = false) : a.armed r e x n = none := by
  cases a with
  | send s =>
    have hs : s.delay = none := by simpa [Action.isDelayedSend] using hd
    simp [Action.armed, hs]
  | _ => rfl

theorem resume_armed (hp : p.context = x) (h : resume r e t p n = .ok q) :
    q.context = x ∧ q.actions = p.actions ++ t.armed r e x n := by
  obtain ⟨p₁, h₁, h⟩ := Microstep.bind_eq_ok.mp h
  cases h
  obtain ⟨hp₁, ha₁⟩ := foldlM_plans (f := add r e n) (g := fun a => (a.armed r e x n).toList)
    (fun a ha _ _ hp h => add_armed (List.mem_filter.mp ha).right hp h) hp h₁
  refine ⟨hp₁, ?_⟩
  have hskip : (fun a : Action => if a.isDelayedSend then a.armed r e x n else none) =
      Action.armed r e x n := by
    funext a
    cases hd : a.isDelayedSend <;> simp [armed_of_not_delayed, hd]
  simp only [invoke, Tree.armed, ha₁, ← List.filterMap_eq_flatMap_toList, List.filterMap_filter,
    hskip, List.append_assoc]

theorem exists_resume : (∃ q, resume r e t p n = .ok q) ↔
    ∀ a ∈ (t.node n).entry, a.isDelayedSend = true → a.Known r := by
  rw [← List.forall_mem_filter, ← exists_addAll n (e := e) (p := p)]
  simp only [resume, Microstep.bind_eq_ok]
  constructor
  case mp =>
    rintro ⟨_, q, hq, _⟩
    exact ⟨q, hq⟩
  case mpr =>
    rintro ⟨q, hq⟩
    exact ⟨_, q, hq, rfl⟩

end Plan

namespace Microstep

theorem exists_resume (wf : t.WellFormed) : (∃ actions, resume t r e c x = .ok actions) ↔
    ∀ n ∈ c, ∀ a ∈ (t.node n).entry, a.isDelayedSend = true → a.Known r := by
  have hns := Plan.exists_foldlM (f := Plan.resume r e t) (fun _ _ => Plan.exists_resume)
    (t.shallowestFirst c.toList) { context := x }
  simp only [wf.mem_shallowestFirst] at hns
  refine Iff.trans ?_ hns
  simp only [resume, bind_eq_ok]
  constructor
  case mp =>
    rintro ⟨_, q, hq, _⟩
    exact ⟨q, hq⟩
  case mpr =>
    rintro ⟨q, hq⟩
    exact ⟨_, q, hq, rfl⟩

theorem arrive_empty (t : Tree) (r : Registry C S) (e : Event) (x : C) (c : Configuration) :
    arrive t r e x [] ∅ c =
      (t.shallowestFirst c.toList).foldlM (enterNode t r e) { context := x } := by
  have hall : c.filter (fun n => !(∅ : Configuration).contains n) = c := by
    ext n
    simp
  rw [arrive, hall]

-- The nodes of `c` are entered in the order in which they are brought back.
theorem arrive_follows (wf : t.WellFormed) (ha : r.AssignsNothing t c) :
    Plan.Follows x (arrive t r e x [] ∅ c)
      ((t.shallowestFirst c.toList).foldlM (Plan.resume r e t) { context := x }) := by
  rw [arrive_empty]
  refine .foldlM (.planned rfl rfl rfl) fun n hn p q h => Plan.enterNode_follows h ?_
  exact ha n (wf.mem_shallowestFirst.mp hn)

theorem enter_cases {m : Microstep C} (hc : c.isLegal t = true) :
    (∃ s m', arrive t r e m.context [] ∅ c = .ok s ∧ enter t r e m [] ∅ c = .ok m') ∨
    ∃ err, arrive t r e m.context [] ∅ c = .error err ∧
      enter t r e m [] ∅ c = .error (.failed err) := by
  cases ha : arrive t r e m.context [] ∅ c with
  | ok s => exact .inl ⟨s, _, rfl, enter_eq_ok_iff.mpr ⟨hc, s, ha, rfl⟩⟩
  | error err => exact .inr ⟨err, rfl, enter_of_arrive_error hc ha⟩

theorem resume_eq_ok {actions : List Planned} (h : resume t r e c x = .ok actions) :
    actions = (t.shallowestFirst c.toList).flatMap (t.armed r e x) := by
  obtain ⟨q, hq, h⟩ := bind_eq_ok.mp h
  cases h
  have hplans := Plan.foldlM_plans (f := Plan.resume r e t) (g := t.armed r e x)
    (fun _ _ _ _ => Plan.resume_armed) rfl hq
  exact hplans.right

section Timers

variable {s : Definition.State} {machineId : String} {root : Definition.State} {d : Delay}
  (hb : root.build machineId = .ok t) (hs : root.listed[n]? = some s)
  (hd : d ∈ Definition.timers s.spec)
include hb hs hd

theorem timerSend_mem_entry : Definition.timerSend (t.node n).id d ∈ (t.node n).entry := by
  rw [(Definition.State.build_written hb hs).entry]
  exact List.mem_append_right _ (List.mem_map_of_mem hd)

-- An `after` transition of an active node has its timer set, if its delay is known.
theorem timer_mem_armed (hk : ∀ a ∈ (t.node n).entry, a.isDelayedSend = true → a.Known r) :
    ∃ span, d.duration? r e x = some span ∧
      .timer n (Definition.timerName (t.node n).id d) span ∈ t.armed r e x n := by
  have hentry := timerSend_mem_entry hb hs hd
  obtain ⟨span, hspan⟩ : ∃ span, d.duration? r e x = some span := by
    cases d with
    | fixed d => exact ⟨d, rfl⟩
    | named name =>
      have hdelay : r.hasDelay name = true := hk _ hentry rfl name rfl
      obtain ⟨compute, hc⟩ := Option.isSome_iff_exists.mp hdelay
      exact ⟨compute x e, by simp [Delay.duration?, hc]⟩
  refine ⟨span, hspan, List.mem_append_left _ (List.mem_filterMap.mpr ⟨_, hentry, ?_⟩)⟩
  simp [Definition.timerSend, Action.armed, hspan, Planned.timer]

end Timers

-- Bringing a configuration back to life plans the delayed events and the invocations that entering
-- it plans, in the same order, and nothing else. It fails only for a delay that is not registered,
-- and then entering fails as well.
theorem resume_arms {machineId : String} {root : Definition.State}
    (hb : root.build machineId = .ok t) (hc : c.isLegal t = true) (ha : r.AssignsNothing t c)
    (h : History) :
    let entering := enter t r e { configuration := ∅, context := x, history := h } [] ∅ c
    let resuming := resume t r e c x
    ((∃ m, entering = .ok m) ↔ ∀ n ∈ c, ∀ a ∈ (t.node n).entry, a.Known r) ∧
    (∀ m, entering = .ok m →
      m.actions = m.entryActions ∧ resuming = .ok (m.entryActions.filter Planned.arms)) ∧
    (∀ err, entering = .error (.failed err) →
      resuming = .error err ∨ ∃ name, err = .unknownAction name) ∧
    ((∃ actions, resuming = .ok actions) ↔
      ∀ n ∈ c, ∀ a ∈ (t.node n).entry, a.isDelayedSend = true → a.Known r) ∧
    ∀ actions, resuming = .ok actions →
      actions = (t.shallowestFirst c.toList).flatMap (t.armed r e x) ∧
      ∀ n ∈ c, ∀ s, root.listed[n]? = some s → ∀ d ∈ Definition.timers s.spec,
        ∃ span, d.duration? r e x = some span ∧
          .timer n (Definition.timerName (t.node n).id d) span ∈ actions := by
  have wf := Definition.State.build_wellFormed hb
  intro entering resuming
  have hfollows : Plan.Follows x (arrive t r e x [] ∅ c) _ := arrive_follows wf ha
  refine ⟨?known, fun m hm => ?planned, fun err herr => ?failed, exists_resume wf,
    fun actions hr => ?armed⟩
  case known =>
    have hns := Plan.exists_foldlM (f := enterNode t r e) (fun _ _ => exists_enterNode)
      (t.shallowestFirst c.toList) { context := x }
    simp only [wf.mem_shallowestFirst] at hns
    rw [← arrive_empty] at hns
    refine Iff.trans ?_ hns
    rcases enter_cases (m := { configuration := ∅, context := x, history := h }) hc with
      ⟨s, m, hs, hm⟩ | ⟨err, hs, hm⟩
    · exact iff_of_true ⟨m, hm⟩ ⟨s, hs⟩
    · exact iff_of_false (fun ⟨m, h⟩ => by cases hm.symm.trans h)
        fun ⟨s, h⟩ => by cases hs.symm.trans h
  case planned =>
    obtain ⟨_, s, hs, rfl⟩ := enter_eq_ok_iff.mp hm
    rw [hs] at hfollows
    obtain ⟨q, hq, ha⟩ := hfollows.of_ok
    exact ⟨rfl, bind_eq_ok.mpr ⟨q, hq, congrArg Except.ok ha⟩⟩
  case failed =>
    rcases enter_cases (m := { configuration := ∅, context := x, history := h }) hc with
      ⟨s, m, _, hm⟩ | ⟨err', harr, hm⟩
    · cases hm.symm.trans herr
    · cases hm.symm.trans herr
      rw [harr] at hfollows
      refine hfollows.of_error.imp_left fun he => ?_
      simp only [resuming, resume, he]
      rfl
  case armed =>
    have hk := (exists_resume wf).mp ⟨actions, hr⟩
    have hactions := resume_eq_ok hr
    refine ⟨hactions, fun n hn s hs d hd => ?_⟩
    obtain ⟨span, hspan, hmem⟩ := timer_mem_armed hb hs hd (hk n hn)
    refine ⟨span, hspan, ?_⟩
    rw [hactions]
    exact List.mem_flatMap.mpr ⟨n, wf.mem_shallowestFirst.mpr hn, hmem⟩

end Microstep

-- An oven that beeps when it is switched on, has a probe, and goes off after a while.
def oven : Definition.State :=
  .mk { key := "m", initial := some "on" } [
    .mk {
      key := "on"
      entry := [
        .log "on",
        .send { event := some ⟨"HOT", .null⟩, delay := some (.named "preheat") },
        .named "beep",
        .send { event := some ⟨"HELLO", .null⟩ }]
      transitions := [(.after (.fixed (.ofMillis 500)), { targets := ["off"] })]
      invocations := [{ service := "probe" }] } [],
    .mk { key := "off" } []]

def ovenTree : Tree := ((Definition.Layout.ofState "m" oven).lower "m").value

theorem oven_build : oven.build "m" = .ok ovenTree :=
  Definition.State.build_of_problems (by decide +kernel)

def ovenRegistry : Registry Unit Unit where
  actions := .ofList [("beep", .effect fun _ _ => {})]
  delays := .ofList [("preheat", fun _ _ => .ofMillis 200)]

namespace Microstep

theorem resume_arms_oven : ∃ m, enter ovenTree ovenRegistry .init
      { configuration := ∅, context := (), history := ∅ } [] ∅ (.ofList [0, 1]) = .ok m ∧
    m.entryActions.length = 6 ∧
    resume ovenTree ovenRegistry .init (.ofList [0, 1]) () = .ok [
      .send ⟨"HOT", .null⟩ .self (some (.ofMillis 200)) none 1,
      .timer 1 "after(500)#m.on" (.ofMillis 500),
      .spawn "probe" "m.on:invocation[0]" (some 1) false] := by
  have ha : ovenRegistry.AssignsNothing ovenTree (.ofList [0, 1]) := by
    intro n _ name _ update hu
    cases List.mem_singleton.mp (SortedMap.find?_eq_some.mp hu)
  obtain ⟨m, hm, hlength, hactions⟩ : ∃ m, enter ovenTree ovenRegistry .init
      { configuration := ∅, context := (), history := ∅ } [] ∅ (.ofList [0, 1]) = .ok m ∧
        m.entryActions.length = 6 ∧ m.entryActions.filter Planned.arms = [
          .send ⟨"HOT", .null⟩ .self (some (.ofMillis 200)) none 1,
          .timer 1 "after(500)#m.on" (.ofMillis 500),
          .spawn "probe" "m.on:invocation[0]" (some 1) false] :=
    exists_eq_ok (by decide +kernel)
  obtain ⟨_, hplanned, _⟩ := resume_arms oven_build (by decide +kernel) ha ∅
  exact ⟨m, hm, hlength, hactions ▸ (hplanned m hm).right⟩

end Microstep

end Statechart
