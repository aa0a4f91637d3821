import Statechart.Proofs.Session

-- Which events of actors an interpreter takes. An event in the mailbox is marked with the id of the
-- actor that posted it, and an id can be used again.

namespace Statechart

-- The actions start an actor `id` and do not end it again.
def Planned.Install (actions : List Planned) (id : String) : Prop :=
  ∃ before a later, actions = before ++ a :: later ∧ a.startsActor id = true ∧
    ∀ b ∈ later, b.endsActor id = false

theorem Arena.contains_iff {A : Type} {arena : Arena A} {id : String} :
    arena.contains id = true ↔ id ∈ arena.ids := by
  simp [contains, find?, ids]

namespace Interpreter

variable {C S A : Type} [ActorModel C S A] {m : Machine C S} {chapters : List (Chapter C A)}
  {i : Interpreter C S A} {env : Env} {v : Envelope} {id : String}

-- The actors that an interpreter knows are those that its actions have left.
theorem Session.ids (h : Session m chapters i) (hs : i.shell.status ≠ .stopped) :
    i.shell.actors.ids = (chapters.flatMap (·.record.carried)).foldl Planned.onIds [] := by
  have hcarried {ids ids' : List String} {chapters : List (Chapter C A)} {x : Chapter C A}
      (ih : ids = (chapters.flatMap (·.record.carried)).foldl Planned.onIds [])
      (h : ids' = x.record.carried.foldl Planned.onIds ids) :
      ids' = ((chapters ++ [x]).flatMap (·.record.carried)).foldl Planned.onIds [] := by
    rw [List.flatMap_append, List.foldl_append, ← ih, List.flatMap_singleton]
    exact h
  have hmacrostep {i j : Interpreter C S A} {env : Env} {trigger : Trigger} {t : Trace C A}
      (hs : j.shell.status ≠ .stopped)
      (h : (i.macrostepTracing env trigger).outcome = .ok (j, t)) :
      j.shell.actors.ids = t.record.carried.foldl Planned.onIds i.shell.actors.ids := by
    obtain ⟨_, hstop | ⟨_, hf⟩⟩ := macrostepTracing_follows h
    · exact absurd hstop hs
    · exact hf.ids
  induction h with
  | new _ _ _ ha _ => rw [ha]; rfl
  | aside _ hst _ he ih => exact he.ids.trans (ih (hst ▸ hs))
  | @start _ i _ _ _ _ hn hj ih =>
    have hids := hmacrostep (i := { i with shell.status := .running }) hs hj
    exact hcarried (ih (by simp [hn])) hids
  | event _ hrun hj ih => exact hcarried (ih (by simp [hrun])) (hmacrostep hs hj)
  | resume _ hc _ hp ih =>
    obtain ⟨hn, _⟩ := Course.resumption_ok hc
    exact hcarried (ih (by simp [hn])) (Shell.performEachTracing_follows hp).ids
  | halt _ _ _ hj =>
    obtain ⟨_, rfl, hr⟩ := halt_ok hj
    exact absurd hr.status hs
  | stop _ hj => exact absurd (stopped_of_stopTracing hj).right hs

theorem process_of_origin (hv : v.origin = some id) : i.process env v =
    if id ∈ i.shell.actors.ids then i.macrostep env (.event v.event) else pure i := by
  simp [process, hv, Arena.contains_iff]

-- Once an actor has ended, what it posted is dropped unless another actor was started with its id
-- and is still there. Then it is taken for what that one posted.
theorem Session.process_of_ended {before later : List Planned} {a : Planned}
    (h : Session m chapters i) (hr : i.shell.status = .running) (hv : v.origin = some id)
    (hc : chapters.flatMap (·.record.carried) = before ++ a :: later)
    (ha : a.endsActor id = true) :
    (Planned.Install (a :: later) id → i.process env v = i.macrostep env (.event v.event)) ∧
      (¬ Planned.Install (a :: later) id → i.process env v = pure i) := by
  have hids : id ∈ i.shell.actors.ids ↔ Planned.Install (a :: later) id := by
    rw [h.ids (by simp [hr]), hc, List.foldl_append,
      Planned.mem_onIdsAll (Planned.nodup_onIdsAll List.nodup_nil)]
    exact or_iff_right fun ⟨_, hall⟩ => by simp [hall a List.mem_cons_self] at ha
  rw [process_of_origin hv, ← hids]
  exact ⟨fun hid => if_pos hid, fun hid => if_neg hid⟩

section Loader

def loaded (n : Int) : Envelope := ⟨some loaderId, .doneInvoke loaderId (.int n)⟩

-- Something has been fetched, but it was already asked for something else.
theorem loader_waiting : ∃ (s : Shell Unit (Actor (Child Unit 0))) (t t' : Trace Unit _),
    Runs loaderMachine .zero ⟨loaderMachine, .plain (.ofList [0, 2]), s⟩ ∧
      Session loaderMachine [.ran .start t, .ran (.event (load 1)) t']
        ⟨loaderMachine, .plain (.ofList [0, 2]), s⟩ ∧
      t.record = [] ∧ t'.record = [(.cancelOwned 1, none), (fetch, none)] ∧
      s.status = .running ∧ s.Unheard ∧ s.mailbox = [{ event := load 2 }, loaded 1] ∧
      s.actors = [{ id := loaderId, actor := .future none }] := by
  obtain ⟨s, t, t', hruns, hs, ht, ht', hn⟩ := loader_loading
  have hmail : s.mailbox = [] := hn.mailbox_of_unheard ⟨rfl, rfl⟩
  have hquiet : s.Unheard := hn.unheard ⟨rfl, rfl⟩
  have hunheard : Shell.Unheard { s with
      mailbox := [{ event := load 2 }, loaded 1]
      actors := [{ id := loaderId, actor := (.future none : Actor (Child Unit 0)) }] } :=
    ⟨hquiet.listeners, hquiet.errorListeners⟩
  let i : NestedInterpreter Unit 0 := ⟨loaderMachine, .plain (.ofList [0, 2]), s⟩
  let s' : Shell Unit (Actor (Child Unit 0)) := { s with
    mailbox := [{ event := load 2 }, loaded 1]
    actors := [{ id := loaderId, actor := .future none }] }
  have h : (i.post (load 2)).finishTasks.outcome = .ok { i with shell := s' } := by
    have hs : s = { s with mailbox := [], actors := (loaderShell [1]).actors } := by
      have ha : (loaderShell [1]).actors = s.actors := hn.actors.symm
      rw [ha, ← hmail]
    rw [show i = { i with shell := s } from rfl, hs]
    rfl
  have he : s.actors.Evolves Unit s'.actors := by
    obtain ⟨s₁, h₁, h⟩ := Turn.bind_eq_ok.mp h
    obtain rfl : s₁ = s' := congrArg shell (Except.ok.inj h)
    exact Shell.eachActor_evolves (s := (i.post (load 2)).shell) (fun _ _ => .finishTasks) h₁
  exact ⟨s', t, t', .operate (e := loaderEnv) (.operate hruns (.post _)) (.finishTasks h),
    hs.aside (s := s') rfl (.inl rfl) he, ht, ht', hn.status, hunheard, rfl, rfl⟩

-- The loader forgets what it fetched first and begins again.
theorem loader_reloading {s : Shell Unit (Actor (Child Unit 0))} (hr : s.status = .running)
    (hl : s.Unheard) (hm : s.mailbox = [loaded 1])
    (ha : s.actors = [{ id := loaderId, actor := .future none }]) :
    ∃ (s' : Shell Unit (Actor (Child Unit 0))) (t : Trace Unit _),
      (macrostepTracing loaderEnv ⟨loaderMachine, .plain (.ofList [0, 2]), s⟩
        (.event (load 2))).outcome = .ok (⟨loaderMachine, .plain (.ofList [0, 2]), s'⟩, t) ∧
      t.record = [(.stop loaderId, none), (.cancelOwned 2, none), (fetch, none)] ∧
      s'.status = .running ∧ s'.Unheard ∧ s'.mailbox = [loaded 1] ∧
      s'.actors = (loaderShell [2]).actors := by
  obtain ⟨m, hreacts, hact⟩ : ∃ m, Macrostep.Reacts loaderMachine.tree loaderMachine.registry
      loaderMachine.config (.plain (.ofList [0, 2])) (.event (load 2)) m (.plain (.ofList [0, 2])) ∧
        m.actions = [.stop loaderId, .cancelOwned 2, fetch] :=
    Macrostep.exists_reacts (by decide +kernel)
  have hcommit : (commit loaderEnv loaderMachine.registry s m (load 2)).outcome =
      .ok ({ s with
        scheduler := s.scheduler.cancelOwner 2
        actors := (loaderShell [2]).actors }, none) := by
    have hs : s = { s with
        mailbox := [loaded 1]
        actors := [{ id := loaderId, actor := .future none }] } := by
      rw [← hm, ← ha]
    rw [commit, hact, hs]
    rfl
  obtain ⟨s', t, ht, hrec, hn⟩ := macrostepTracing_of_reacts loaderEnv
    (i := ⟨loaderMachine, .plain (.ofList [0, 2]), s⟩) hreacts hcommit
  rw [hact] at hrec
  have hunheard : Shell.Unheard { s with
      scheduler := s.scheduler.cancelOwner 2
      actors := (loaderShell [2]).actors } := ⟨hl.listeners, hl.errorListeners⟩
  exact ⟨s', t, ht, hrec, hn.status.trans hr, hn.unheard hunheard,
    (hn.mailbox_of_unheard hunheard).trans hm, hn.actors⟩

-- The result that nobody waits for any more is taken for the one that is awaited.
theorem Session.process_of_ended_loader : ∃ (i : NestedInterpreter Unit 0)
    (chapters : List (Chapter Unit (Actor (Child Unit 0)))),
    Session loaderMachine chapters i ∧ i.shell.status = .running ∧
      chapters.flatMap (·.record.carried) =
        [.cancelOwned 1, fetch] ++ .stop loaderId :: [.cancelOwned 2, fetch] ∧
      Planned.Install (.stop loaderId :: [.cancelOwned 2, fetch]) loaderId ∧
      i.process loaderEnv (loaded 1) = i.macrostep loaderEnv (.event (loaded 1).event) := by
  obtain ⟨s, t₀, t₁, _, hs, h₀, h₁, hr, hl, _, ha⟩ := loader_waiting
  obtain ⟨s', t₂, h, h₂, hr', _⟩ := loader_reloading (s := { s with mailbox := [loaded 1] }) hr
    ⟨hl.listeners, hl.errorListeners⟩ rfl ha
  have hwaiting := hs.aside (s := { s with mailbox := [loaded 1] }) rfl (.inl rfl) (.refl _)
  have hs' := hwaiting.event hr h
  have hinstall : Planned.Install (.stop loaderId :: [.cancelOwned 2, fetch]) loaderId :=
    ⟨[.stop loaderId, .cancelOwned 2], fetch, [], rfl, by decide, nofun⟩
  have hcarried : ([.ran .start t₀, .ran (.event (load 1)) t₁] ++
      [.ran (.event (load 2)) t₂] : List (Chapter Unit _)).flatMap (·.record.carried) =
        [.cancelOwned 1, fetch] ++ .stop loaderId :: [.cancelOwned 2, fetch] := by
    simp [Chapter.record, Chapter.trace, h₀, h₁, h₂, Record.carried]
  exact ⟨_, _, hs', hr', hcarried, hinstall,
    (hs'.process_of_ended hr' rfl hcarried (by decide)).left hinstall⟩

-- What was fetched first is shown although it was asked for something else since.
theorem loader_shown {s : Shell Unit (Actor (Child Unit 0))}
    (ha : s.actors = (loaderShell [2]).actors) : ∃ s' : Shell Unit (Actor (Child Unit 0)),
      (macrostep loaderEnv ⟨loaderMachine, .plain (.ofList [0, 2]), s⟩
        (.event (loaded 1).event)).outcome =
          .ok ⟨loaderMachine, .plain (.ofList [0, 3]), s'⟩ := by
  obtain ⟨m, hreacts, hact⟩ : ∃ m, Macrostep.Reacts loaderMachine.tree loaderMachine.registry
      loaderMachine.config (.plain (.ofList [0, 2])) (.event (loaded 1).event) m
      (.plain (.ofList [0, 3])) ∧ m.actions = [.stop loaderId, .cancelOwned 2] :=
    Macrostep.exists_reacts (by decide +kernel)
  have hcommit : ∃ s', (commit loaderEnv loaderMachine.registry s m (loaded 1).event).outcome =
      .ok (s', none) := by
    have hs : s = { s with actors := (loaderShell [2]).actors } := by rw [← ha]
    rw [commit, hact, hs]
    exact ⟨_, rfl⟩
  obtain ⟨_, hcommit⟩ := hcommit
  obtain ⟨s', h, _⟩ :=
    macrostep_of_reacts loaderEnv (i := ⟨loaderMachine, .plain (.ofList [0, 2]), s⟩) hreacts hcommit
  exact ⟨s', h⟩

-- An event that an actor posted before it was stopped can be processed after that, if another actor
-- with its id was started.
theorem exists_stale_event : ¬ ∀ (root : Definition.State) (machineId : String)
    (m : NestedMachine Unit 0) (env : Env) (i j : NestedInterpreter Unit 0) (u v : Envelope)
    (rest rest' : List Envelope) (id : String) (r : Record),
    root.build machineId = .ok m.tree → Runs m env.now i → i.shell.status = .running →
      i.shell.mailbox = u :: v :: rest → u.origin = none → v.origin = some id →
      (∀ a ∈ i.shell.actors, a.autoForward = false) →
      record env { i with shell.mailbox := v :: rest } (.event u.event) = .ok r →
      (.stop id, none) ∈ r →
      (process env { i with shell.mailbox := v :: rest } u).outcome = .ok j →
      j.shell.mailbox = v :: rest' →
      (process env { j with shell.mailbox := rest' } v).outcome =
        .ok { j with shell.mailbox := rest' } := by
  intro hall
  obtain ⟨s, _, _, hruns, _, _, _, hr, hl, hm, ha⟩ := loader_waiting
  obtain ⟨s', t, ht, hrec, hr', hl', hm', ha'⟩ := loader_reloading
    (s := { s with mailbox := [loaded 1] }) hr ⟨hl.listeners, hl.errorListeners⟩ rfl ha
  have h := macrostep_of_tracing ht
  have hrec : record loaderEnv ⟨loaderMachine, .plain (.ofList [0, 2]),
      { s with mailbox := [loaded 1] }⟩ (.event (load 2)) =
        .ok [(.stop loaderId, none), (.cancelOwned 2, none), (fetch, none)] := by
    rw [record, ht, ← hrec]
    rfl
  have hforward : ∀ a ∈ s.actors, a.autoForward = false := by simp [ha]
  have hstale := hall loader "m" loaderMachine loaderEnv _ _ _ _ _ _ _ _ loader_build hruns hr hm
    rfl rfl hforward hrec List.mem_cons_self
    ((congrArg Turn.outcome (process_of_outside rfl hforward)).trans h) hm'
  have hknown : loaderId ∈ s'.actors.ids := ha' ▸ List.mem_singleton_self _
  have horigin : (loaded 1).origin = some loaderId := rfl
  rw [process_of_origin horigin, if_pos hknown] at hstale
  obtain ⟨s'', hshown⟩ := loader_shown (s := { s' with mailbox := [] }) ha'
  have hst : MachineState.plain (.ofList [0, 3]) = .plain (.ofList [0, 2]) :=
    congrArg state (Except.ok.inj (hshown.symm.trans hstale))
  exact absurd (congrArg MachineState.configuration hst) (by decide)

end Loader

end Interpreter

end Statechart
