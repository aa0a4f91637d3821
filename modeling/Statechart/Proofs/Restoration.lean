import Statechart.Proofs.Accepted
import Statechart.Proofs.Punctual
import Statechart.Proofs.Regular
import Statechart.Proofs.Resumption

-- Which checkpoints an interpreter can be restored from, and what has been done by then.

namespace Statechart

-- A checkpoint that can be read for the tree.
structure Checkpoint.Suits {C : Type} (t : Tree) (c : Checkpoint C) : Prop where
  version : c.version = currentVersion
  machineId : c.machineId = t.machineId
  known : ∀ id ∈ c.configuration, ∃ n < t.size, (t.node n).id = id
  legal : ∀ s : Configuration, Lists t c.configuration s → s.isLegal t = true
  history : ∀ e ∈ c.history.entries,
    (∃ k < t.size, (t.node k).id = e.1 ∧ (t.node k).isHistory = true) ∧
      ∀ id ∈ e.2, ∃ n < t.size, (t.node n).id = id

theorem Checkpoint.exists_state_iff {C : Type} {t : Tree} {c : Checkpoint C} (hi : t.Identified) :
    (∃ s, c.state t = .ok s) ↔ c.Suits t := by
  simp only [state_eq_ok hi]
  constructor
  case mp =>
    rintro ⟨s, hs⟩
    refine ⟨hs.version, hs.machineId, hs.configuration.known, fun s' hs' => ?_, fun e he => ?_⟩
    · exact hs'.unique hs.configuration ▸ hs.legal
    · obtain ⟨r, ⟨hk, hid, hh⟩, hl⟩ := hs.history.known e he
      exact ⟨⟨r.1, hk, hid, hh⟩, hl.known⟩
  case mpr =>
    intro h
    obtain ⟨ns, hns⟩ := exists_indicesOf hi h.known
    have hl := lists_of_indicesOf hi hns
    obtain ⟨rs, hrs⟩ := exists_forall₂ (R := Statechart.Checkpoint.Reads t) (l := c.history.entries)
      fun e he => by
        obtain ⟨⟨k, hk, hid, hh⟩, hknown⟩ := h.history e he
        obtain ⟨ms, hms⟩ := exists_indicesOf hi hknown
        exact ⟨(k, .ofList ms), ⟨hk, hid, hh⟩, lists_of_indicesOf hi hms⟩
    let s : MachineState C := {
      configuration := .ofList ns
      context := c.context
      history := .ofList rs
      done := c.done }
    exact ⟨s, h.version, h.machineId, hl, h.legal _ hl, records_ofList hi hrs, rfl, rfl, rfl⟩

namespace Shell

variable {C S A : Type} [ActorModel C S A] {env : Env} {s s' s'' : Shell C A} {r : Registry C S}
  {x : C} {e : Event} {a : Planned} {actions : List Planned} {id : String}

-- What actors have posted is in the mailbox, after what was there, and what the listeners posted
-- that heard of an error. Apart from that nothing but the actors, the delayed events and the last
-- error has changed.
def Heard (s s' : Shell C A) : Prop := ∃ vs : List Envelope,
  (∀ v ∈ vs, v.origin = none → ∃ err, v.event ∈ s.complaints [err]) ∧
  s' = { s with
    actors := s'.actors
    scheduler := s'.scheduler
    lastError := s'.lastError
    mailbox := s.mailbox ++ vs }

namespace Heard

omit [ActorModel C S A]

theorem refl (s : Shell C A) : s.Heard s := ⟨[], by simp, by simp⟩

theorem trans (h : s.Heard s') (h' : s'.Heard s'') : s.Heard s'' := by
  obtain ⟨vs, hvs, hs⟩ := h
  obtain ⟨vs', hvs', hs'⟩ := h'
  have hc : s'.complaints = s.complaints := by rw [hs]; rfl
  refine ⟨vs ++ vs', ?_, ?_⟩
  case refine_1 => exact fun v hv => (List.mem_append.mp hv).elim (hvs v) (hc ▸ hvs' v)
  case refine_2 =>
    rw [hs', hs]
    simp

theorem receive (s : Shell C A) (id : String) (posts : List Post) : s.Heard (s.receive id posts) :=
  ⟨_, by simp, rfl⟩

theorem withActors (s : Shell C A) (arena : Arena A) : s.Heard { s with actors := arena } :=
  ⟨[], by simp, by simp⟩

theorem withScheduler (s : Shell C A) (scheduler : Scheduler) :
    s.Heard { s with scheduler := scheduler } :=
  ⟨[], by simp, by simp⟩

end Heard

omit [ActorModel C S A] in
theorem runActor_heard {α : Type} {y : Turn C α} {b : α}
    (h : (s.runActor id y).outcome = .ok (b, s')) : s.Heard s' := by
  obtain ⟨_, _, h⟩ := Turn.bind_eq_ok.mp h
  cases h
  exact .receive ..

theorem insertActor_heard {entry : ArenaEntry A}
    (h : (s.insertActor env entry).outcome = .ok s') : s.Heard s' := by
  obtain ⟨s₁, h₁, h⟩ := Turn.bind_eq_ok.mp h
  cases h
  refine Heard.trans ?_ (.withActors s₁ _)
  simp only [removeActor] at h₁
  split at h₁
  case h_1 =>
    cases h₁
    exact .refl s
  case h_2 =>
    obtain ⟨_, h₂, h₁⟩ := Turn.bind_eq_ok.mp h₁
    cases h₁
    exact (Heard.withActors s _).trans (runActor_heard h₂)

theorem spawn_heard {logic : S} {request : StartRequest C} {autoForward : Bool}
    (h : (s.spawn env logic request autoForward).outcome = .ok s') : s.Heard s' := by
  simp only [spawn] at h
  obtain ⟨⟨started, s₁⟩, h₁, h⟩ := Turn.bind_eq_ok.mp h
  refine (runActor_heard h₁).trans ?_
  cases started with
  | ok => exact insertActor_heard h
  | error =>
    obtain ⟨_, _, h⟩ := Turn.bind_eq_ok.mp h
    obtain ⟨s₂, h₂, h⟩ := Turn.bind_eq_ok.mp h
    cases h
    exact (insertActor_heard h₂).trans (.receive ..)

theorem perform_heard {failure : Option ExecutionError} (ha : a.arms = true)
    (h : (s.perform env r x e a).outcome = .ok (s', failure)) : s.Heard s' := by
  cases a with
  | send sent target delay id owner =>
    cases delay with
    | none => cases ha
    | some delay =>
      simp only [perform] at h
      split at h
      · cases h
        exact .refl _
      · cases h
        exact .withScheduler _ _
  | spawn service id owner autoForward =>
    simp only [perform] at h
    split at h
    · cases h
      exact .refl _
    · obtain ⟨_, h₁, h⟩ := Turn.bind_eq_ok.mp h
      cases h
      exact spawn_heard h₁
  | _ => cases ha

omit [ActorModel C S A] in
theorem reportAll_heard {es : List ExecutionError} (h : (s.reportAll es).outcome = .ok s') :
    s.Heard s' := by
  cases (reportAll_outcome es s).symm.trans h
  refine ⟨_, fun v hv _ => ?_, rfl⟩
  obtain ⟨e, he, rfl⟩ := List.mem_map.mp hv
  obtain ⟨err, _, he⟩ := List.mem_flatMap.mp he
  exact ⟨err, by simpa [complaints] using he⟩

-- An interpreter that arms its nodes posts nothing to itself.
theorem performEach_heard (ha : ∀ a ∈ actions, a.arms = true)
    (h : (s.performEach env r x e actions).outcome = .ok s') : s.Heard s' := by
  induction actions generalizing s with
  | nil =>
    cases h
    exact .refl _
  | cons a rest ih =>
    obtain ⟨ha, hrest⟩ := List.forall_mem_cons.mp ha
    obtain ⟨s₂, h₂, h⟩ := Turn.bind_eq_ok.mp h
    obtain ⟨_, h₁, h₂⟩ := Turn.bind_eq_ok.mp h₂
    exact ((perform_heard ha h₁).trans (reportAll_heard h₂)).trans (ih hrest h)

end Shell

theorem Tree.armed_arms {C S : Type} {t : Tree} {r : Registry C S} {e : Event} {x : C}
    {n : NodeIndex} : ∀ a ∈ t.armed r e x n, a.arms = true := by
  intro a ha
  rcases List.mem_append.mp ha with ha | ha
  case inl =>
    obtain ⟨b, _, hb⟩ := List.mem_filterMap.mp ha
    cases b with
    | send s =>
      obtain ⟨_, _, hb⟩ := Option.bind_eq_some_iff.mp hb
      obtain ⟨_, _, hb⟩ := Option.bind_eq_some_iff.mp hb
      cases hb
      rfl
    | _ => cases hb
  case inr =>
    obtain ⟨_, _, rfl⟩ := List.mem_map.mp ha
    rfl

theorem Machine.Accepted.identified {C S : Type} {m : Machine C S} (h : m.Accepted) :
    m.tree.Identified := by
  obtain ⟨_, _, hb⟩ := h
  exact Definition.State.build_identified (build_eq_ok hb).left

namespace Interpreter

section Resumption

variable {C S A : Type} {i : Interpreter C S A} {c : Checkpoint C} {s : MachineState C}
  {actions : List Planned}

-- The interpreter can be restored from the checkpoint.
structure Restorable (i : Interpreter C S A) (c : Checkpoint C) : Prop where
  notStarted : i.shell.status = .notStarted
  suits : c.Suits i.machine.tree

theorem resumption_eq_ok : i.resumption c = .ok (s, actions) ↔ i.shell.status = .notStarted ∧
    c.state i.machine.tree = .ok s ∧ Microstep.resume i.machine.tree i.machine.registry .init
      s.configuration s.context = .ok actions := by
  constructor
  case mp =>
    intro h
    have hr := Course.resume_of_resumption h
    simp only [resumption] at h
    split at h
    case isTrue => contradiction
    case isFalse hn =>
      obtain ⟨_, hs, h⟩ := Microstep.bind_eq_ok.mp h
      obtain ⟨_, _, h⟩ := Microstep.bind_eq_ok.mp h
      cases h
      exact ⟨by simpa using hn, hs, hr⟩
  case mpr =>
    rintro ⟨hn, hs, hr⟩
    rw [resumption, if_neg (by simp [hn])]
    refine Microstep.bind_eq_ok.mpr ⟨s, hs, Microstep.bind_eq_ok.mpr ⟨actions, ?_, rfl⟩⟩
    rw [hr]
    rfl

-- No more than that is looked at: the names that are needed are known.
theorem exists_resumption_iff (hm : i.machine.Accepted) :
    (∃ s actions, i.resumption c = .ok (s, actions)) ↔ i.Restorable c := by
  have hi := hm.identified
  constructor
  case mp =>
    rintro ⟨s, actions, h⟩
    obtain ⟨hn, hs, _⟩ := resumption_eq_ok.mp h
    exact ⟨hn, (Checkpoint.exists_state_iff hi).mp ⟨s, hs⟩⟩
  case mpr =>
    intro h
    obtain ⟨s, hs⟩ := (Checkpoint.exists_state_iff hi).mpr h.suits
    obtain ⟨actions, hr, _⟩ := Microstep.resume_known hm.provides.right
    exact ⟨s, actions, resumption_eq_ok.mpr ⟨h.notStarted, hs, hr⟩⟩

-- What there is to do is to arm the active nodes, in the context that was written.
theorem armed_of_resumption (hi : i.machine.tree.Identified)
    (h : i.resumption c = .ok (s, actions)) : c.Accepted i.machine.tree s ∧
      actions = (i.machine.tree.shallowestFirst s.configuration.toList).flatMap
        (i.machine.tree.armed i.machine.registry .init c.context) ∧
      ∀ a ∈ actions, a.arms = true := by
  obtain ⟨_, hs, hresume⟩ := resumption_eq_ok.mp h
  have ha := (Checkpoint.state_eq_ok hi).mp hs
  have hactions := Microstep.resume_eq_ok hresume
  refine ⟨ha, ha.context ▸ hactions, fun a hmem => ?_⟩
  obtain ⟨_, _, hmem⟩ := List.mem_flatMap.mp (hactions ▸ hmem)
  exact Tree.armed_arms a hmem

end Resumption

section InPlace

variable {C S A : Type} [ActorModel C S A] {env : Env} {i : Interpreter C S A} {c : Checkpoint C}
  {s : MachineState C} {actions : List Planned}

-- Changes an interpreter in place and may be refused on the way.
abbrev Changing (C S A : Type) := ExceptT CheckpointError (StateT (Interpreter C S A) (Turn C))

def change (f : Interpreter C S A → Turn C (Interpreter C S A)) : Changing C S A Unit :=
  ExceptT.mk fun i => do pure (.ok (), ← f i)

def performInPlace (env : Env) (x : C) (a : Planned) : Changing C S A Unit :=
  change fun i => do
    pure { i with shell := ← i.shell.performEach env i.machine.registry x .init [a] }

-- Restoring, one change of the interpreter after the other.
def restoreInPlace (env : Env) (c : Checkpoint C) : Changing C S A Unit := do
  let i ← get
  if i.shell.status ≠ .notStarted then throw .alreadyStarted
  let s ← MonadExcept.ofExcept (c.state i.machine.tree)
  let actions ← MonadExcept.ofExcept ((Microstep.resume i.machine.tree i.machine.registry .init
    s.configuration s.context).mapError .notResumable)
  modify fun i => { i with state := s }
  modify fun i => { i with shell.status := .running }
  modify fun i => { i with shell.lastEvent := some .init }
  if s.done then change (halt env)
  else
    actions.forM (performInPlace env s.context)
    change (drain env)

omit [ActorModel C S A] in
theorem change_bind_run (f : Interpreter C S A → Turn C (Interpreter C S A))
    (y : Changing C S A Unit) :
    (change f >>= fun _ => y).run.run i = f i >>= fun j => y.run.run j := by
  change ((f i >>= fun j => pure (Except.ok (), j)) >>= fun z =>
    ExceptT.bindCont (fun _ => y) z.1 z.2) = _
  rw [bind_assoc]
  simp only [pure_bind]
  rfl

theorem forM_bind_run (x : C) (y : Changing C S A Unit) :
    (actions.forM (performInPlace env x) >>= fun _ => y).run.run i =
      i.shell.performEach env i.machine.registry x .init actions >>= fun shell =>
        y.run.run { i with shell := shell } := by
  induction actions generalizing i with
  | nil => rfl
  | cons a rest ih =>
    rw [List.forM, bind_assoc, performInPlace, change_bind_run, bind_assoc]
    simp only [pure_bind, ih]
    rw [Shell.performEach, Shell.performEach, List.foldlM_cons]
    simp [Shell.performEach]

omit [ActorModel C S A] in
theorem get_bind_run (f : Interpreter C S A → Changing C S A Unit) :
    (get >>= f).run.run i = (f i).run.run i := rfl

omit [ActorModel C S A] in
theorem ofExcept_bind_run {α : Type} {a : α} (f : α → Changing C S A Unit) :
    (MonadExcept.ofExcept (Except.ok a : Except CheckpointError α) >>= f).run.run i =
      (f a).run.run i := rfl

theorem restoreInPlace_of_refused {err : CheckpointError} (h : i.resumption c = .error err) :
    (restoreInPlace env c).run.run i = pure (.error err, i) := by
  rw [resumption] at h
  rw [restoreInPlace, get_bind_run]
  by_cases hn : i.shell.status = .notStarted
  case neg =>
    rw [if_pos hn] at h ⊢
    cases h
    rfl
  case pos =>
    rw [if_neg (by simp [hn])] at h ⊢
    dsimp only at h ⊢
    cases hs : c.state i.machine.tree with
    | error =>
      rw [hs] at h
      cases h
      rfl
    | ok s =>
      rw [hs] at h
      change (Microstep.resume i.machine.tree i.machine.registry .init s.configuration
        s.context).mapError CheckpointError.notResumable >>= _ = _ at h
      rw [ofExcept_bind_run]
      cases hr : Microstep.resume i.machine.tree i.machine.registry .init s.configuration
        s.context with
      | error =>
        rw [hr] at h
        cases h
        rfl
      | ok =>
        rw [hr] at h
        cases h

theorem restoreInPlace_of_resumption (h : i.resumption c = .ok (s, actions)) :
    (restoreInPlace env c).run.run i = (.ok (), ·) <$> i.resume env s actions := by
  obtain ⟨hn, hs, hr⟩ := resumption_eq_ok.mp h
  rw [map_eq_pure_bind, restoreInPlace, get_bind_run, if_neg (by simp [hn])]
  dsimp only
  rw [hs, ofExcept_bind_run, hr]
  let j : Interpreter C S A := { i with
    state := s
    shell.status := .running
    shell.lastEvent := some Event.init }
  cases hd : s.done with
  | true =>
    rw [resume, if_pos hd]
    rfl
  | false =>
    rw [resume, if_neg (by simp [hd]), bind_assoc]
    change ((actions.forM (performInPlace env s.context) : Changing C S A Unit) >>= fun _ =>
      change (drain env)).run.run j = _
    rw [forM_bind_run]
    rfl

theorem restore_of_resumption (h : i.resumption c = .ok (s, actions)) :
    i.restore env c = .ok <$> i.resume env s actions := by
  rw [restore, h, map_eq_pure_bind]

-- Before the first event is taken, only timers are set and invocations are started.
theorem resume_of_not_done (hs : s.done = false) :
    i.resume env s actions =
      Shell.performEach env i.machine.registry s.context .init
          { i.shell with status := .running, lastEvent := some .init } actions >>= fun shell =>
        drain env { i with state := s, shell := shell } := by
  rw [resume, if_neg (by simp [hs])]

theorem restore_of_restorable (env : Env) (hm : i.machine.Accepted) (hr : i.Restorable c) :
    ∃ s actions, i.resumption c = .ok (s, actions) ∧
      i.restore env c = .ok <$> i.resume env s actions := by
  obtain ⟨s, actions, h⟩ := (exists_resumption_iff hm).mpr hr
  exact ⟨s, actions, h, restore_of_resumption h⟩

theorem restore_of_not_restorable (env : Env) (hm : i.machine.Accepted)
    (hr : ¬ i.Restorable c) : ∃ err, i.restore env c = pure (.error err) ∧
      (restoreInPlace env c).run.run i = pure (.error err, i) := by
  cases h : i.resumption c with
  | error err => exact ⟨err, by simp only [restore, h], restoreInPlace_of_refused h⟩
  | ok y => exact absurd ((exists_resumption_iff hm).mp ⟨y.1, y.2, h⟩) hr

theorem restore_refused_iff (hm : i.machine.Accepted) :
    (∃ err, (i.restore env c).outcome = .ok (.error err)) ↔ ¬ i.Restorable c := by
  constructor
  case mp =>
    rintro ⟨err, herr⟩ hr
    obtain ⟨s, actions, _, hrestore⟩ := restore_of_restorable env hm hr
    obtain ⟨_, _, herr⟩ := Turn.map_eq_ok.mp (hrestore ▸ herr)
    cases herr
  case mpr =>
    intro hr
    obtain ⟨err, hrestore, _⟩ := restore_of_not_restorable env hm hr
    exact ⟨err, congrArg Turn.outcome hrestore⟩

theorem restore_succeeds_iff (hm : i.machine.Accepted) :
    (∃ j, (i.restore env c).outcome = .ok (.ok j)) ↔
      i.Restorable c ∧ ∀ crash, (i.restore env c).outcome ≠ .error crash := by
  constructor
  case mp =>
    rintro ⟨j, hj⟩
    refine ⟨?_, fun crash hcrash => by cases hj.symm.trans hcrash⟩
    by_contra hr
    obtain ⟨err, herr⟩ := (restore_refused_iff hm).mpr hr
    cases hj.symm.trans herr
  case mpr =>
    rintro ⟨hr, hcrash⟩
    cases ho : (i.restore env c).outcome with
    | error crash => exact absurd ho (hcrash crash)
    | ok y =>
      cases y with
      | error err => exact absurd hr ((restore_refused_iff hm).mp ⟨err, ho⟩)
      | ok j => exact ⟨j, rfl⟩

-- A checkpoint is refused if and only if it does not fit the machine or the interpreter has been
-- started before, and then nothing has been done. Otherwise the interpreter is restored if and only
-- if going on from there does not break off.
theorem restore_iff_restorable (hm : i.machine.Accepted) (c : Checkpoint C) (env : Env) :
    let t := i.machine.tree
    let r := i.machine.registry
    let restoring := i.restore env c
    let inPlace := (restoreInPlace env c).run.run i
    ((∃ err, restoring.outcome = .ok (.error err)) ↔ ¬ i.Restorable c) ∧
    (¬ i.Restorable c → ∃ err, restoring = pure (.error err) ∧ inPlace = pure (.error err, i)) ∧
    ((∃ j, restoring.outcome = .ok (.ok j)) ↔
      i.Restorable c ∧ ∀ crash, restoring.outcome ≠ .error crash) ∧
    (i.Restorable c → ∃ s actions, c.Accepted t s ∧
      actions = (t.shallowestFirst s.configuration.toList).flatMap (t.armed r .init c.context) ∧
      (∀ a ∈ actions, a.arms = true) ∧
      restoring = .ok <$> i.resume env s actions ∧
      inPlace = (.ok (), ·) <$> i.resume env s actions ∧
      (c.done = false →
        let begun : Shell C A := { i.shell with status := .running, lastEvent := some .init }
        let arming := begun.performEach env r c.context .init actions
        (i.resume env s actions = arming >>= fun shell =>
          drain env { i with state := s, shell := shell }) ∧
        ∀ shell, arming.outcome = .ok shell → begun.Heard shell ∧
          shell.scheduler = actions.foldl (Scheduler.after env.now) i.shell.scheduler)) := by
  intro t r restoring inPlace
  refine ⟨restore_refused_iff hm, restore_of_not_restorable env hm, restore_succeeds_iff hm,
    fun hr => ?_⟩
  obtain ⟨s, actions, h, hrestore⟩ := restore_of_restorable env hm hr
  obtain ⟨ha, hactions, harms⟩ := armed_of_resumption hm.identified h
  refine ⟨s, actions, ha, hactions, harms, hrestore, restoreInPlace_of_resumption h,
    fun hd => ⟨?_, fun shell hs => ?_⟩⟩
  case refine_1 => exact ha.context ▸ resume_of_not_done (ha.done.trans hd)
  case refine_2 =>
    have hscheduler := Shell.performEach_scheduler hs
    exact ⟨Shell.performEach_heard harms hs, hscheduler⟩

end InPlace

end Interpreter

-- A beacon that comes on at dusk as bright as it was.
def beacon : Definition.State :=
  .mk { key := "m", initial := some "off" } [
    .mk {
      key := "off"
      invocations := [{ service := "dusk", onDone := some { targets := ["on.seen"] } }] } [],
    .mk { key := "on", initial := some "dim" } [
      .mk { key := "seen", shape := .history .shallow } [],
      .mk { key := "dim" } [],
      .mk { key := "bright" } []]]

def beaconTree : Tree := ((Definition.Layout.ofState "m" beacon).lower "m").value

theorem beacon_build : beacon.build "m" = .ok beaconTree :=
  Definition.State.build_of_problems (by decide +kernel)

def beaconMachine : NestedMachine Unit 0 where
  tree := beaconTree
  registry := { services := .ofList [("dusk", .promise fun _ _ => .ok .null)] }
  context := ()

theorem beaconMachine_accepted : beaconMachine.Accepted :=
  accepted_of_build beacon_build (by decide +kernel)

-- A beacon that is off, with what is written for its history node.
def Checkpoint.ofBeacon (ids : List String) : Checkpoint Unit where
  version := currentVersion
  id := .nil
  timestamp := .epoch
  machineId := "m"
  configuration := ["m", "m.off"]
  history := .ofList [("m.on.seen", ids)]
  context := ()
  done := false

namespace Interpreter

def beaconWaiting : NestedInterpreter Unit 0 := .new beaconMachine

theorem beaconWaiting_accepted : beaconWaiting.machine.Accepted := beaconMachine_accepted

theorem beacon_resumption {ids : List String}
    (h : ids = ["m.on.bright"] ∨ ids = ["m.on.dim", "m.on.bright"]) : ∃ y,
      beaconWaiting.resumption (.ofBeacon ids) = .ok y ∧ y.1.configuration = .ofList [0, 1] := by
  rcases h with rfl | rfl
  · exact Microstep.exists_eq_ok (by decide +kernel)
  · exact Microstep.exists_eq_ok (by decide +kernel)

theorem restore_iff_restorable_beacon : beaconWaiting.machine.Accepted ∧
    (∃ err, beaconWaiting.restore { now := .zero } .crooked = pure (.error err)) ∧
    ∃ s actions, Checkpoint.Accepted beaconTree (.ofBeacon ["m.on.bright"]) s ∧
      actions = [.spawn "dusk" "m.off:invocation[0]" (some 1) false] ∧
      beaconWaiting.restore { now := .zero } (.ofBeacon ["m.on.bright"]) =
        .ok <$> beaconWaiting.resume { now := .zero } s actions := by
  have hm := beaconWaiting_accepted
  refine ⟨hm, ?_, ?_⟩
  case refine_1 =>
    have hr : ¬ beaconWaiting.Restorable .crooked := by
      intro hr
      obtain ⟨_, _, h⟩ := (exists_resumption_iff hm).mpr hr
      have hnone : (beaconWaiting.resumption .crooked).toOption.isNone = true := by decide +kernel
      rw [h] at hnone
      cases hnone
    obtain ⟨_, hrefused, _⟩ := restore_iff_restorable hm .crooked { now := .zero }
    obtain ⟨err, h, _⟩ := hrefused hr
    exact ⟨err, h⟩
  case refine_2 =>
    obtain ⟨y, hy, hc⟩ := beacon_resumption (.inl rfl)
    have hr := (exists_resumption_iff hm).mp ⟨_, _, hy⟩
    obtain ⟨_, hy, _⟩ := resumption_eq_ok.mp hy
    have ha := (Checkpoint.state_eq_ok (Definition.State.build_identified beacon_build)).mp hy
    obtain ⟨_, _, _, haccepted⟩ :=
      restore_iff_restorable hm (.ofBeacon ["m.on.bright"]) { now := .zero }
    obtain ⟨s, actions, hs, hactions, _, hrestore, _⟩ := haccepted hr
    refine ⟨s, actions, hs, ?_, hrestore⟩
    rw [hactions, hs.configuration.unique ha.configuration, hc]
    decide +kernel

-- Going on breaks off where a history node is entered for which nodes have been written that cannot
-- be active together.
theorem exists_restore_crash : ¬ ∀ (i : NestedInterpreter Unit 0) (c : Checkpoint Unit) (env : Env),
    i.machine.Accepted → ((∃ j, (i.restore env c).outcome = .ok (.ok j)) ↔ i.Restorable c) := by
  intro h
  have hm := beaconWaiting_accepted
  obtain ⟨y, hy, _⟩ := beacon_resumption (.inr rfl)
  have hr := (exists_resumption_iff hm).mp ⟨_, _, hy⟩
  obtain ⟨j, hj⟩ := (h beaconWaiting _ { now := .zero } hm).mpr hr
  have hcrash : (beaconWaiting.restore { now := .zero }
      (.ofBeacon ["m.on.dim", "m.on.bright"])).outcome.map (fun _ => ()) =
        .error .illegalConfiguration := by
    decide +kernel
  rw [hj] at hcrash
  cases hcrash

end Interpreter

end Statechart
