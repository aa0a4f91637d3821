import Statechart.Proofs.Planning
import Statechart.Proofs.Queue

-- How a macrostep ends, whatever comes of it: it looks for transitions and commits microsteps a
-- limited number of times, and an error leaves what the last committed microstep has made.

namespace Statechart

-- The microstep that is committed.
def Deed.microsteps : Deed C → List (Microstep C)
  | committed m => [m]
  | looked .. => []

namespace Macrostep

variable {C S σ : Type} (t : Tree) (r : Registry C S) (config : Config) (commit : Commit σ C)

-- A macrostep from `s` that has done `ds` looks, at `q`, for the transitions that are enabled: by
-- the event of `q`, or without an event.
inductive Seeks (shell : σ) (s : MachineState C) :
    Trigger → List (Deed C) → Progress σ C → Bool → Prop
  | first {e} : Seeks shell s (.event e) [] { shell := shell, state := s, current := e } false
  | always {trigger ds p} : Reaches t r config commit shell s trigger ds p →
      p.state.done = false → p.microsteps < config.maxMicrosteps → Seeks shell s trigger ds p true
  | raised {trigger ds p e rest} : Reaches t r config commit shell s trigger ds p →
      Settled t r config p → p.raised = e :: rest →
      Seeks shell s trigger (ds ++ [.looked p.state p.current true []])
        { p.noteErrors (selection t r config p.state p.current true).guardErrors with
          current := e, raised := rest } false

-- A macrostep from `s` that has done `ds` is about to commit what is computed, at `q`, for the
-- transitions `us`, or for the start.
inductive Proposes (shell : σ) (s : MachineState C) : Trigger → List (Deed C) → Progress σ C →
    List Transition → Except Fault (Microstep C) → Prop
  | start : Proposes shell s .start [] { shell := shell, state := s, current := .init } []
      (Microstep.initial t r .init s.context s.history)
  | enabled {trigger ds q eventless us} : Seeks t r config commit shell s trigger ds q eventless →
      (selection t r config q.state q.current eventless).result = .ok us → us ≠ [] →
      Proposes shell s trigger (ds ++ [.looked q.state q.current eventless us])
        (q.noteErrors (selection t r config q.state q.current eventless).guardErrors) us
        (attempt t r q us)

-- A macrostep from `s` that has done `ds` cannot go on at `q`: a guard fails, what is enabled
-- cannot be planned, or the limit is reached.
inductive Fails (shell : σ) (s : MachineState C) (trigger : Trigger) :
    List (Deed C) → Progress σ C → ExecutionError → Prop
  | guard {ds q eventless err} : Seeks t r config commit shell s trigger ds q eventless →
      (selection t r config q.state q.current eventless).result = .error err →
      Fails shell s trigger ds q err
  | planning {ds q us x err} : Proposes t r config commit shell s trigger ds q us x →
      x = .error (.failed err) → Fails shell s trigger ds q err
  | limit {ds p} : Reaches t r config commit shell s trigger ds p → p.state.done = false →
      config.maxMicrosteps ≤ p.microsteps →
      Fails shell s trigger ds p (.microstepLimit config.maxMicrosteps p.current.name)

-- What a macrostep from `s` comes to that has done `ds`.
inductive Concludes (shell : σ) (s : MachineState C) :
    Trigger → List (Deed C) → Except Crash (Progress σ C) → Prop
  | idle {e} : (selection t r config s e false).result = .ok [] →
      Concludes shell s (.event e) [.looked s e false []] (.ok (opening t r config shell s e))
  | done {trigger ds p} : Reaches t r config commit shell s trigger ds p → p.state.done = true →
      Concludes shell s trigger ds (.ok p)
  | resting {trigger ds p} : Completes t r config commit shell s trigger ds p →
      Concludes shell s trigger ds (.ok p)
  | failed {trigger ds q err} : Fails t r config commit shell s trigger ds q err →
      Concludes shell s trigger ds (.ok (q.fail err))
  | refused {trigger ds q us x m shell' err} :
      Proposes t r config commit shell s trigger ds q us x → x = .ok m →
      (commit q.shell m q.current).outcome = .ok (shell', some err) →
      Concludes shell s trigger ds (.ok (q.refuse shell' m err))
  | illegal {trigger ds q us x} : Proposes t r config commit shell s trigger ds q us x →
      x = .error .illegal → Concludes shell s trigger ds (.error .illegalConfiguration)
  | broken {trigger ds q us x m k} : Proposes t r config commit shell s trigger ds q us x →
      x = .ok m → (commit q.shell m q.current).outcome = .error k →
      Concludes shell s trigger ds (.error k)

variable {t r config commit} {shell shell' : σ} {s : MachineState C} {trigger : Trigger}
  {ds : List (Deed C)} {p q : Progress σ C} {us : List Transition} {eventless : Bool}
  {x : Except Fault (Microstep C)} {m : Microstep C} {err : ExecutionError}
  {o : Except Crash (Progress σ C)}

section Run

theorem exists_proposes (hr : Reaches t r config commit shell s trigger ds p)
    (ho : Offers t r config p q us) :
    ∃ ds', Proposes t r config commit shell s trigger ds' q us (attempt t r q us) := by
  cases ho with
  | always hd hl hs hus => exact ⟨_, .enabled (.always hr hd hl) hs hus⟩
  | raised hset hq hs hus => exact ⟨_, .enabled (.raised hr hset hq) hs hus⟩

theorem reaches_of_proposes (hp : Proposes t r config commit shell s trigger ds q us x)
    (hx : x = .ok m) (hc : (commit q.shell m q.current).outcome = .ok (shell', none)) :
    Reaches t r config commit shell s trigger (ds ++ [.committed m]) (q.accept shell' m) := by
  cases hp with
  | start => exact .begins (.start hx hc)
  | enabled hq hs hus =>
    cases hq with
    | first => exact .begins (.event hs hus hx hc)
    | always hr hd hl =>
      rw [List.append_assoc]
      exact hr.proceeds (.microstep (.always hd hl hs hus) hus hx hc)
    | raised hr hset hq =>
      rw [List.append_assoc, List.append_assoc]
      exact hr.proceeds (.microstep (.raised hset hq hs) hus hx hc)

-- Once a microstep is computed, the macrostep ends with it or goes on.
theorem concludes_of_proposes (hp : Proposes t r config commit shell s trigger ds q us x)
    (hnext : ∀ m shell', x = .ok m → (commit q.shell m q.current).outcome = .ok (shell', none) →
      ∃ ds', Concludes t r config commit shell s trigger ds'
        (loop t r config commit (q.accept shell' m)).outcome) :
    ∃ ds', Concludes t r config commit shell s trigger ds'
      ((ofFault x).outcome.bind fun c => (begin t r config commit q c).outcome) := by
  cases x with
  | error fault =>
    cases fault with
    | failed err => exact ⟨ds, .failed (.planning hp rfl)⟩
    | illegal => exact ⟨ds, .illegal hp rfl⟩
  | ok m =>
    change ∃ ds', Concludes t r config commit shell s trigger ds'
      (begin t r config commit q (.step m)).outcome
    rw [begin, Turn.outcome_bind]
    cases hc : (commit q.shell m q.current).outcome with
    | error k => exact ⟨ds, .broken hp rfl hc⟩
    | ok answer =>
      obtain ⟨shell', refusal⟩ := answer
      cases refusal with
      | some err => exact ⟨ds, .refused hp rfl hc⟩
      | none => exact hnext m shell' rfl hc

theorem concludes_of_stops (hr : Reaches t r config commit shell s trigger ds p)
    (hq : Stops t r config p q) :
    ∃ ds', Concludes t r config commit shell s trigger ds' (.ok q) := by
  cases hq with
  | done hd => exact ⟨ds, .done hr hd⟩
  | limited hd hl => exact ⟨ds, .failed (.limit hr hd hl)⟩
  | failed hd hl hs =>
    rw [Progress.noteErrors_nil]
    exact ⟨ds, .failed (.guard (.always hr hd hl) hs)⟩
  | resting hset hq => exact ⟨_, .resting ⟨hr, hset, hq⟩⟩
  | raised hset hq hs =>
    rw [Progress.noteErrors_nil]
    exact ⟨_, .failed (.guard (.raised hr hset hq) hs)⟩

-- By induction on the rounds that are left.
theorem loop_concludes (hr : Reaches t r config commit shell s trigger ds p) :
    ∃ ds', Concludes t r config commit shell s trigger ds' (loop t r config commit p).outcome := by
  induction p using (round_wellFounded t r config commit).induction generalizing ds with
  | h p ih =>
    rcases loop_cases t r config p with ⟨q, us, ho⟩ | ⟨e, rest, hset, hq, he⟩ | ⟨q, hq⟩
    · rw [loop_of_offers ho]
      obtain ⟨ds', hp⟩ := exists_proposes hr ho
      exact concludes_of_proposes hp fun m shell' hm hc =>
        ih _ (.microstep ho ⟨hm, hc⟩) (reaches_of_proposes hp hm hc)
    · rw [loop_of_skip hset hq he]
      exact ih _ (.skip hset hq he) (hr.proceeds (.skip (.raised hset hq he)))
    · rw [loop_of_stops commit hq]
      exact concludes_of_stops hr hq

-- Every macrostep comes to an end, after finitely many deeds.
theorem run_concludes (t : Tree) (r : Registry C S) (config : Config) (commit : Commit σ C)
    (shell : σ) (s : MachineState C) (trigger : Trigger) :
    ∃ ds, Concludes t r config commit shell s trigger ds
      (run t r config commit shell s trigger).outcome := by
  cases trigger with
  | start =>
    rw [run_start_outcome]
    exact concludes_of_proposes .start fun m shell' hm hc =>
      loop_concludes (reaches_of_proposes .start hm hc)
  | event e =>
    match hs : (selection t r config s e false).result with
    | .error err =>
      rw [run_event_outcome, choose_of_error hs]
      exact ⟨[], .failed (.guard .first hs)⟩
    | .ok [] =>
      rw [run_event_outcome, choose_of_nil hs]
      exact ⟨_, .idle hs⟩
    | .ok (u :: us) =>
      have hus : u :: us ≠ [] := List.cons_ne_nil u us
      rw [run_event_of_selection hs hus]
      exact concludes_of_proposes (.enabled .first hs hus) fun m shell' hm hc =>
        loop_concludes (reaches_of_proposes (.enabled .first hs hus) hm hc)

theorem run_of_seeks (hq : Seeks t r config commit shell s trigger ds q eventless)
    (hs : (selection t r config q.state q.current eventless).result = .error err) :
    (run t r config commit shell s trigger).outcome = .ok (q.fail err) := by
  cases hq with
  | first =>
    rw [run_event_outcome, choose_of_error hs]
    rfl
  | always hr hd hl =>
    rw [(run_of_reaches hr).left, loop_of_stops commit (.failed hd hl hs), Progress.noteErrors_nil]
  | raised hr hset hq =>
    rw [(run_of_reaches hr).left, loop_of_stops commit (.raised hset hq hs),
      Progress.noteErrors_nil]

theorem run_of_proposes (hp : Proposes t r config commit shell s trigger ds q us x) :
    (run t r config commit shell s trigger).outcome =
      (ofFault x).outcome.bind fun c => (begin t r config commit q c).outcome := by
  cases hp with
  | start => exact run_start_outcome
  | enabled hq hs hus =>
    cases hq with
    | first => exact run_event_of_selection hs hus
    | always hr hd hl =>
      rw [(run_of_reaches hr).left]
      exact loop_of_offers (.always hd hl hs hus)
    | raised hr hset hq =>
      rw [(run_of_reaches hr).left]
      exact loop_of_offers (.raised hset hq hs hus)

theorem run_of_fails (hf : Fails t r config commit shell s trigger ds q err) :
    (run t r config commit shell s trigger).outcome = .ok (q.fail err) := by
  cases hf with
  | guard hq hs => exact run_of_seeks hq hs
  | planning hp hx =>
    rw [run_of_proposes hp, hx]
    rfl
  | limit hr hd hl => rw [(run_of_reaches hr).left, loop_of_stops commit (.limited hd hl)]

theorem run_of_concludes (h : Concludes t r config commit shell s trigger ds o) :
    (run t r config commit shell s trigger).outcome = o := by
  cases h with
  | idle hs =>
    rw [run_event_outcome, choose_of_nil hs]
    rfl
  | done hr hd => rw [(run_of_reaches hr).left, loop_of_stops commit (.done hd)]
  | resting hc => exact (run_of_completes hc).left
  | failed hf => exact run_of_fails hf
  | illegal hp hx =>
    rw [run_of_proposes hp, hx]
    rfl
  | refused hp hx hc | broken hp hx hc =>
    rw [run_of_proposes hp, hx]
    change (begin t r config commit _ (.step _)).outcome = _
    rw [begin, Turn.outcome_bind, hc]
    rfl

end Run

section Tally

-- As many microsteps as `n` are committed, no more than the limit allows unless it allows none. An
-- event is taken up if it is the trigger or was raised, and there are at most two deeds for each
-- microstep and for each event that is taken up.
structure Tally (config : Config) (trigger : Trigger) (ds : List (Deed C)) (n : Nat) : Prop where
  committed : (ds.flatMap Deed.microsteps).length = n
  limited : n ≤ max 1 config.maxMicrosteps
  handled : (ds.flatMap Deed.handled).length ≤
    (ds.flatMap Deed.raised).length + trigger.events.length
  length : ds.length ≤ 2 * (n + (ds.flatMap Deed.handled).length)

theorem reaches_length (h : Reaches t r config commit shell s trigger ds p) :
    (ds.flatMap Deed.microsteps).length = p.microsteps ∧
      p.microsteps ≤ max 1 config.maxMicrosteps ∧
      ds.length < 2 * (p.microsteps + (ds.flatMap Deed.handled).length) := by
  induction h with
  | begins hb =>
    cases hb <;>
      simp [Deed.microsteps, Deed.handled, Progress.accept, Progress.noteErrors, opening]
  | @proceeds ds p ds' q _ hp ih =>
    obtain ⟨hm, hl, hlen⟩ := ih
    cases hp with
    | microstep hlook =>
      have hlimit : p.microsteps < config.maxMicrosteps := by
        cases hlook with
        | always _ hl => exact hl
        | raised hset => exact hset.below_limit
      cases hlook <;>
        simp [Deed.microsteps, Deed.handled, Progress.accept, Progress.noteErrors, dequeue,
          -List.length_flatMap, hm] <;> omega
    | skip hlook =>
      cases hlook with
      | always _ _ _ hus => contradiction
      | raised =>
        simp [Deed.microsteps, Deed.handled, Progress.noteErrors, dequeue, -List.length_flatMap,
          hm, hl]
        omega

theorem reaches_tally (h : Reaches t r config commit shell s trigger ds p) :
    Tally config trigger ds p.microsteps := by
  obtain ⟨hm, hl, hlen⟩ := reaches_length h
  have hserved := congrArg List.length (served_reaches h).handled
  rw [List.length_append, List.length_append] at hserved
  exact ⟨hm, hl, by omega, hlen.le⟩

-- To look does not exceed what is allowed for.
theorem seeks_tally (h : Seeks t r config commit shell s trigger ds q eventless) :
    Tally config trigger ds q.microsteps ∧ ∀ us,
      Tally config trigger (ds ++ [.looked q.state q.current eventless us]) q.microsteps := by
  cases h with
  | first =>
    refine ⟨⟨rfl, Nat.zero_le _, Nat.zero_le _, Nat.zero_le _⟩, fun us => ?_⟩
    exact ⟨rfl, Nat.zero_le _, by simp [Deed.handled, Deed.raised, Trigger.events],
      by simp [Deed.handled]⟩
  | always hr =>
    have ht := reaches_tally hr
    obtain ⟨_, _, hlen⟩ := reaches_length hr
    refine ⟨ht, fun us => ⟨?_, ht.limited, ?_, ?_⟩⟩
    · simpa [Deed.microsteps, -List.length_flatMap] using ht.committed
    · simpa [Deed.handled, Deed.raised, -List.length_flatMap] using ht.handled
    · simpa [Deed.handled, -List.length_flatMap] using Nat.succ_le_of_lt hlen
  | raised hr hset hq =>
    have ht := reaches_tally hr
    obtain ⟨_, _, hlen⟩ := reaches_length hr
    have hserved := congrArg List.length (served_reaches hr).handled
    simp only [List.length_append, hq, List.length_cons] at hserved
    refine ⟨⟨?_, ht.limited, ?_, ?_⟩, fun us => ⟨?_, ht.limited, ?_, ?_⟩⟩
    all_goals simp [Deed.microsteps, Deed.handled, Deed.raised, Progress.noteErrors,
      -List.length_flatMap, ht.committed]
    all_goals omega

theorem proposes_tally (h : Proposes t r config commit shell s trigger ds q us x) :
    Tally config trigger ds q.microsteps := by
  cases h with
  | start => exact ⟨rfl, Nat.zero_le _, Nat.zero_le _, Nat.zero_le _⟩
  | enabled hq => exact (seeks_tally hq).right _

theorem concludes_tally (h : Concludes t r config commit shell s trigger ds o) :
    Tally config trigger ds (ds.flatMap Deed.microsteps).length ∧
      ∀ p, o = .ok p → p.microsteps = (ds.flatMap Deed.microsteps).length := by
  have hof {n : Nat} (ht : Tally config trigger ds n) (ho : ∀ p, o = .ok p → p.microsteps = n) :
      Tally config trigger ds (ds.flatMap Deed.microsteps).length ∧
        ∀ p, o = .ok p → p.microsteps = (ds.flatMap Deed.microsteps).length := by
    rw [ht.committed]
    exact ⟨ht, ho⟩
  cases h with
  | @idle e =>
    have hq : Seeks t r config commit shell s (.event e) [] _ false := .first
    exact hof ((seeks_tally hq).right []) fun p hp => by cases hp; rfl
  | done hr => exact hof (reaches_tally hr) fun p hp => by cases hp; rfl
  | resting hc =>
    cases hc with
    | intro hr hset =>
      exact hof ((seeks_tally (.always hr hset.running hset.below_limit)).right [])
        fun p hp => by cases hp; rfl
  | failed hf =>
    cases hf with
    | guard hq => exact hof (seeks_tally hq).left fun p hp => by cases hp; rfl
    | planning hp => exact hof (proposes_tally hp) fun p hp => by cases hp; rfl
    | limit hr => exact hof (reaches_tally hr) fun p hp => by cases hp; rfl
  | refused hp => exact hof (proposes_tally hp) fun p hp => by cases hp; rfl
  | illegal hp => exact hof (proposes_tally hp) nofun
  | broken hp => exact hof (proposes_tally hp) nofun

-- A macrostep does not go on forever, whatever is raised on the way: its rounds cannot be continued
-- without end, and it concludes with as many microsteps as it reports, which the limit bounds, and
-- with no more than two deeds for each microstep and each event.
theorem run_bounded (t : Tree) (r : Registry C S) (config : Config) (commit : Commit σ C)
    (shell : σ) (s : MachineState C) (trigger : Trigger) :
    (WellFounded fun q p : Progress σ C => Round t r config commit p q) ∧
    (∃ ds, Concludes t r config commit shell s trigger ds
      (run t r config commit shell s trigger).outcome) ∧
    ∀ ds o, Concludes t r config commit shell s trigger ds o →
      (run t r config commit shell s trigger).outcome = o ∧
      (ds.flatMap Deed.microsteps).length ≤ max 1 config.maxMicrosteps ∧
      ds.length ≤ 2 * ((ds.flatMap Deed.microsteps).length + (ds.flatMap Deed.raised).length +
        trigger.events.length) ∧
      ∀ p, o = .ok p → p.microsteps = (ds.flatMap Deed.microsteps).length := by
  refine ⟨round_wellFounded t r config commit, run_concludes t r config commit shell s trigger,
    fun ds o h => ?_⟩
  obtain ⟨ht, hm⟩ := concludes_tally h
  have hhandled := ht.handled
  have hlength := ht.length
  exact ⟨run_of_concludes h, ht.limited, by omega, hm⟩

end Tally

section Remains

-- Nothing but what is committed changes the state.
theorem foldl_onState (ds : List (Deed C)) (s : MachineState C) :
    ds.foldl Deed.onState s = (ds.flatMap Deed.microsteps).foldl MachineState.after s := by
  induction ds generalizing s with
  | nil => rfl
  | cons d ds ih => cases d <;> exact ih _

theorem reaches_state (h : Reaches t r config commit shell s trigger ds p) :
    p.state = (ds.flatMap Deed.microsteps).foldl MachineState.after s :=
  (served_reaches h).state.trans (foldl_onState ds s)

theorem seeks_state (h : Seeks t r config commit shell s trigger ds q eventless) :
    q.state = (ds.flatMap Deed.microsteps).foldl MachineState.after s := by
  cases h with
  | first => rfl
  | always hr => exact reaches_state hr
  | raised hr => simpa [Deed.microsteps] using reaches_state hr

theorem proposes_state (h : Proposes t r config commit shell s trigger ds q us x) :
    q.state = (ds.flatMap Deed.microsteps).foldl MachineState.after s := by
  cases h with
  | start => rfl
  | enabled hq => simpa [Deed.microsteps] using seeks_state hq

theorem fails_state (h : Fails t r config commit shell s trigger ds q err) :
    q.state = (ds.flatMap Deed.microsteps).foldl MachineState.after s := by
  cases h with
  | guard hq => exact seeks_state hq
  | planning hp => exact proposes_state hp
  | limit hr => exact reaches_state hr

-- A machine that is done looks no further.
theorem seeks_running (h : Seeks t r config commit shell s trigger ds q eventless)
    (hs : s.done = false) : q.state.done = false := by
  cases h with
  | first => exact hs
  | always _ hd => exact hd
  | raised _ hset => exact hset.running

theorem proposes_running (h : Proposes t r config commit shell s trigger ds q us x)
    (hs : s.done = false) : q.state.done = false := by
  cases h with
  | start => exact hs
  | enabled hq => simpa using seeks_running hq hs

theorem fails_running (h : Fails t r config commit shell s trigger ds q err)
    (hs : s.done = false) : q.state.done = false := by
  cases h with
  | guard hq => exact seeks_running hq hs
  | planning hp => exact proposes_running hp hs
  | limit _ hd => exact hd

-- What is proposed has all its assignments made.
theorem proposes_context (h : Proposes t r config commit shell s trigger ds q us x)
    (hx : x = .ok m) :
    m.context = (m.declared t us).foldl (Action.assigned r q.current) q.state.context := by
  cases h with
  | start => exact Microstep.initial_context hx
  | enabled => exact Microstep.take_context hx

-- A macrostep that ends with an error leaves what its last committed microstep made. If a microstep
-- is refused, the assignments of that one remain, too. The error does not end the machine.
theorem run_failed (h : (run t r config commit shell s trigger).outcome = .ok p)
    (he : p.error = some err) :
    (∃ ds, Concludes t r config commit shell s trigger ds (.ok p)) ∧
    ∀ ds, Concludes t r config commit shell s trigger ds (.ok p) →
      let last := (ds.flatMap Deed.microsteps).foldl MachineState.after s
      p.microsteps = (ds.flatMap Deed.microsteps).length ∧
      (s.done = false → p.state.done = false) ∧
      ((∃ q, Fails t r config commit shell s trigger ds q err) ∧ p.state = last ∨
        ∃ q us m, Proposes t r config commit shell s trigger ds q us (.ok m) ∧
          (commit q.shell m q.current).outcome = .ok (p.shell, some err) ∧
          p.state = { last with
            context := (m.declared t us).foldl (Action.assigned r q.current) last.context }) := by
  refine ⟨h ▸ run_concludes t r config commit shell s trigger, fun ds hc => ?_⟩
  have hm := (concludes_tally hc).right p rfl
  refine ⟨hm, ?_⟩
  cases hc with
  | idle => cases he
  | done hr => cases (run_of_reaches hr).right.right.symm.trans he
  | resting hc => cases (run_of_completes hc).right.right.left.symm.trans he
  | failed hf =>
    cases he
    have hst := fails_state hf
    have hd := fails_running hf
    exact ⟨hd, .inl ⟨⟨_, hf⟩, hst⟩⟩
  | refused hp hx hrefused =>
    cases he
    subst hx
    have hd := proposes_running hp
    refine ⟨hd, .inr ⟨_, _, _, hp, hrefused, ?_⟩⟩
    rw [← proposes_state hp, ← proposes_context hp rfl]
    rfl

end Remains

section Kettle

-- Water is poured into the kettle when it is filled, and once more when it boils.
def kettle : Definition.State :=
  .mk { key := "m", initial := some "idle" } [
    .mk {
      key := "idle"
      transitions := [(.event "FILL",
        { targets := ["full"], actions := [.named "pour", .raise ⟨"BOIL", .null⟩] })] } [],
    .mk {
      key := "full"
      transitions := [
        (.event "BOIL", { targets := ["hot"], actions := [.named "pour"] })] } [],
    .mk { key := "hot" } []]

def kettleTree : Tree := ((Definition.Layout.ofState "m" kettle).lower "m").value

def kettleRegistry : Registry Nat Unit where
  actions := .ofList [("pour", .assign fun n _ => n + 1)]

-- Nothing is done a second time.
def onlyOnce : Commit Bool Nat := fun isDone _ e =>
  pure (true, if isDone then some (.unknownAction e.name) else none)

theorem kettle_filled : ∃ ds p, Reaches kettleTree kettleRegistry {} onlyOnce false
      ⟨.ofList [0, 1], 0, ∅, false, none⟩ (.event ⟨"FILL", .null⟩) ds p ∧
    (ds.flatMap Deed.microsteps).length = 1 ∧ p.shell = true ∧
    p.state = ⟨.ofList [0, 2], 1, ∅, false, none⟩ ∧ p.current = ⟨"FILL", .null⟩ ∧
    p.raised = [⟨"BOIL", .null⟩] ∧ p.microsteps = 1 := by
  obtain ⟨m, hm, hc, hx, hh, hd, hr⟩ : ∃ m, Microstep.take kettleTree kettleRegistry
      ⟨"FILL", .null⟩ (.ofList [0, 1]) 0 ∅ (kettleTree.node 1).transitions = .ok m ∧
        m.configuration = .ofList [0, 2] ∧ m.context = 1 ∧ m.history = ∅ ∧ m.done = false ∧
        m.raised = [⟨"BOIL", .null⟩] := Microstep.exists_eq_ok (by decide +kernel)
  refine ⟨_, _, .begins (.event (Evaluation.eq_ok_of_toOption (a := (kettleTree.node 1).transitions)
    (by decide +kernel)) (by decide +kernel) hm rfl), rfl, rfl, ?_, rfl, hr, rfl⟩
  rw [Progress.accept_state, opening_state, MachineState.after, hc, hx, hh, hd]
  rfl

-- The kettle stays full when boiling is refused, but the water is poured.
theorem run_failed_kettle : ∃ p, (run kettleTree kettleRegistry {} onlyOnce false
      ⟨.ofList [0, 1], 0, ∅, false, none⟩ (.event ⟨"FILL", .null⟩)).outcome = .ok p ∧
    p.error = some (.unknownAction "BOIL") ∧ p.microsteps = 1 ∧
    p.state = ⟨.ofList [0, 2], 2, ∅, false, none⟩ := by
  obtain ⟨ds, p, hp, hlength, hsh, hst, hcur, hq, hn⟩ := kettle_filled
  obtain ⟨m, hm, hx⟩ : ∃ m, Microstep.take kettleTree kettleRegistry
      ⟨"BOIL", .null⟩ (.ofList [0, 2]) 1 ∅ (kettleTree.node 2).transitions = .ok m ∧
        m.context = 2 := Microstep.exists_eq_ok (by decide +kernel)
  have hset : Settled kettleTree kettleRegistry {} p :=
    ⟨hst ▸ rfl, hn ▸ show 1 < 1000 by decide, by
      rw [hst, hcur]
      exact Evaluation.eq_ok_of_toOption (by decide +kernel)⟩
  have hsel : (selection kettleTree kettleRegistry {} p.state ⟨"BOIL", .null⟩ false).result =
      .ok (kettleTree.node 2).transitions := by
    rw [hst]
    exact Evaluation.eq_ok_of_toOption (by decide +kernel)
  have htake : Microstep.take kettleTree kettleRegistry ⟨"BOIL", .null⟩ p.state.configuration
      p.state.context p.state.history (kettleTree.node 2).transitions = .ok m := by
    rw [hst]
    exact hm
  have hcommit : (onlyOnce p.shell m ⟨"BOIL", .null⟩).outcome =
      .ok (true, some (.unknownAction "BOIL")) := by
    rw [hsh]
    rfl
  have hrefused := Concludes.refused (.enabled (.raised hp hset hq) hsel (by decide +kernel)) htake
    hcommit
  have h := run_of_concludes hrefused
  obtain ⟨hcount, _⟩ := (run_failed h rfl).right _ hrefused
  refine ⟨_, h, rfl, ?_, ?_⟩
  · rw [hcount]
    simp [Deed.microsteps, hlength, -List.length_flatMap]
  · simp [Progress.refuse, hst, hx]

end Kettle

end Macrostep

end Statechart
