import Statechart.Proofs.Settle

-- What the limit on microsteps changes: as long as a macrostep stays below it nothing, and at the
-- limit it ends the macrostep, whether or not there was anything left to do.

namespace Statechart

def Config.withLimit (config : Config) (limit : Nat) : Config :=
  { config with maxMicrosteps := limit }

namespace Macrostep

variable {C S σ : Type} {t : Tree} {r : Registry C S} {config : Config} {commit : Commit σ C}
  {p p' q : Progress σ C} {us : List Transition} {s : MachineState C} {shell : σ}
  {trigger : Trigger} {limit : Nat}

section WithLimit

-- Below both limits, what is done next does not depend on which of them holds.
theorem Settled.withLimit (hs : Settled t r config p) (hl : p.microsteps < limit) :
    Settled t r (config.withLimit limit) p :=
  ⟨hs.running, hl, hs.none_enabled⟩

theorem Offers.withLimit (ho : Offers t r config p q us) (hl : p.microsteps < limit) :
    Offers t r (config.withLimit limit) p q us := by
  cases ho with
  | always hd _ hs hus => exact .always hd hl hs hus
  | raised hset hr hs hus => exact .raised (hset.withLimit hl) hr hs hus

theorem Round.withLimit (hr : Round t r config commit p q) (hl : p.microsteps < limit) :
    Round t r (config.withLimit limit) commit p q := by
  cases hr with
  | microstep ho ht => exact .microstep (ho.withLimit hl) ht
  | skip hs hr he => exact .skip (hs.withLimit hl) hr he

theorem Started.withLimit (limit : Nat) (hst : Started t r config commit shell s trigger p) :
    Started t r (config.withLimit limit) commit shell s trigger p := by
  cases hst with
  | start hm hc => exact .start hm hc
  | event hs hus ht => exact .event hs hus ht

theorem Stops.withLimit (hq : Stops t r config p q) (he : q.error = none)
    (hl : p.microsteps < limit) : Stops t r (config.withLimit limit) p q := by
  cases hq with
  | done hd => exact .done hd
  | limited => contradiction
  | failed => contradiction
  | resting hs hr => exact .resting (hs.withLimit hl) hr
  | raised => contradiction

end WithLimit

theorem loop_unmoved (h : (loop t r config commit p).outcome = .ok p') (he : p'.error = none) :
    p.microsteps < p'.microsteps ∨
      (p'.microsteps = p.microsteps ∧ p'.state = p.state ∧ p'.shell = p.shell) := by
  induction p using (round_wellFounded t r config commit).induction with
  | h p ih =>
    rcases loop_flawless h he with hq | ⟨q, hr, h⟩
    · exact .inr ⟨stops_microsteps hq, stops_state hq, stops_shell hq⟩
    · have hq := ih q hr h
      rcases round_cases hr with ⟨hm, _⟩ | ⟨hm, hst, hsh⟩
      · left
        omega
      · rwa [hm, hst, hsh] at hq

-- What would end at `p` is given up at `q`, right after the last microstep of it.
structure CutShort (limit : Nat) (p q : Progress σ C) : Prop where
  state : q.state = p.state
  shell : q.shell = p.shell
  microsteps : q.microsteps = p.microsteps
  error : ∃ e, q.lastEvent = some e ∧ q.error = some (.microstepLimit limit e.name)

theorem loop_withLimit (h : (loop t r config commit p).outcome = .ok p') (he : p'.error = none)
    (hn : p'.microsteps ≤ limit) (hp : p.microsteps = limit → p.lastEvent = some p.current) :
    let limited := (loop t r (config.withLimit limit) commit p).outcome
    (p'.microsteps < limit ∨ p'.state.done = true → limited = .ok p') ∧
      (p'.microsteps = limit → p'.state.done = false →
        ∃ q, limited = .ok q ∧ CutShort limit p' q) := by
  induction p using (round_wellFounded t r config commit).induction with
  | h p ih =>
    by_cases hl : p.microsteps < limit
    case pos =>
      rcases loop_flawless h he with hq | ⟨q, hr, h⟩
      · refine ⟨fun _ => loop_of_stops commit (hq.withLimit he hl), fun hm => ?_⟩
        have := stops_microsteps hq
        omega
      · rw [loop_of_rounds (.single (hr.withLimit hl))]
        refine ih q hr h fun hm => ?_
        rcases round_cases hr with ⟨_, hlast⟩ | ⟨hsame, _⟩
        · exact hlast
        · omega
    -- The limit is reached, so that no microstep can follow in the other run either.
    case neg =>
      obtain ⟨hm, hst, hsh⟩ := (loop_unmoved h he).resolve_left (by omega)
      cases hd : p.state.done
      case true =>
        obtain rfl := Except.ok.inj ((loop_of_stops commit (.done hd)).symm.trans h)
        refine ⟨fun _ => loop_of_stops commit (.done hd), fun _ hd' => ?_⟩
        simp [hd] at hd'
      case false =>
        constructor
        case left =>
          rintro (hlt | hd')
          · omega
          · simp [hst, hd] at hd'
        case right =>
          intro hlimit _
          have hp := hp (by omega)
          have hreached : (config.withLimit limit).maxMicrosteps ≤ p.microsteps := not_lt.mp hl
          exact ⟨_, loop_of_stops commit (.limited hd hreached), hst.symm, hsh.symm, hm.symm,
            p.current, hp, rfl⟩

-- A macrostep that needs fewer microsteps than the limit, or ends the machine, is the same under
-- the limit. One that needs just as many and does not end the machine takes them all and is then
-- reported to exceed the limit, although nothing would have followed.
theorem run_withLimit (hl : 1 ≤ limit)
    (h : (run t r config commit shell s trigger).outcome = .ok p) (he : p.error = none)
    (hn : p.microsteps ≤ limit) :
    let limited := (run t r (config.withLimit limit) commit shell s trigger).outcome
    (p.microsteps < limit ∨ p.state.done = true → limited = .ok p) ∧
      (p.microsteps = limit → p.state.done = false →
        ∃ q, limited = .ok q ∧ CutShort limit p q) := by
  rcases run_flawless h he with ⟨e, rfl, hs, rfl⟩ | ⟨q, hst, hq⟩
  · constructor
    case left =>
      intro _
      have hs : (selection t r (config.withLimit limit) s e false).result = .ok [] := hs
      rw [run_event_outcome, choose_of_nil hs]
      rfl
    case right =>
      intro hm
      have hm : 0 = limit := hm
      omega
  · rw [run_of_started (hst.withLimit limit)]
    exact loop_withLimit hq he hn fun _ => (started_unfailing hst).right.right

def play : Event := ⟨"PLAY", .null⟩

-- To play is a single microstep.
theorem player_plays : ∃ m, Reacts playerTree ({} : Registry Unit Unit) {} (.plain (.ofList [0, 1]))
    (.event play) m (.plain (.ofList [0, 2, 4, 5, 7, 9])) ∧ m.actions = [.cancelOwned 1] :=
  exists_reacts (by decide +kernel)

theorem run_withLimit_player : ∃ p, (run playerTree ({} : Registry Unit Unit) {}
      Machine.noteActions [] (.plain (.ofList [0, 1])) (.event play)).outcome = .ok p ∧
    p.error = none ∧ p.microsteps = 1 ∧ p.state.done = false ∧
    (run playerTree ({} : Registry Unit Unit) (Config.withLimit {} 2) Machine.noteActions []
      (.plain (.ofList [0, 1])) (.event play)).outcome = .ok p ∧
    ∃ q, (run playerTree ({} : Registry Unit Unit) (Config.withLimit {} 1) Machine.noteActions []
      (.plain (.ofList [0, 1])) (.event play)).outcome = .ok q ∧ CutShort 1 p q := by
  obtain ⟨m, hreacts, _⟩ := player_plays
  have hrun : (run playerTree ({} : Registry Unit Unit) {} Machine.noteActions []
      (.plain (.ofList [0, 1])) (.event play)).outcome = .ok _ := run_of_reacts hreacts rfl
  have htwo := run_withLimit (Nat.le_succ 1) hrun rfl (Nat.le_succ 1)
  have hone := run_withLimit le_rfl hrun rfl le_rfl
  exact ⟨_, hrun, rfl, rfl, rfl, htwo.left (.inl (Nat.lt_succ_self 1)), hone.right rfl rfl⟩

-- The only microstep that there is exceeds a limit of one.
theorem exists_limit_at_rest : ∃ p q, (run playerTree ({} : Registry Unit Unit) {}
      Machine.noteActions [] (.plain (.ofList [0, 1])) (.event play)).outcome = .ok p ∧
    p.error = none ∧ p.microsteps = 1 ∧
    (run playerTree ({} : Registry Unit Unit) (Config.withLimit {} 1) Machine.noteActions []
      (.plain (.ofList [0, 1])) (.event play)).outcome = .ok q ∧
    q.error = some (.microstepLimit 1 "PLAY") := by
  obtain ⟨m, hreacts, _⟩ := player_plays
  have hrun : (run playerTree ({} : Registry Unit Unit) {} Machine.noteActions []
      (.plain (.ofList [0, 1])) (.event play)).outcome = .ok _ := run_of_reacts hreacts rfl
  obtain ⟨q, hst, hstate, hcurrent, hone⟩ : ∃ q, Started playerTree ({} : Registry Unit Unit) {}
      Machine.noteActions [] (.plain (.ofList [0, 1])) (.event play) q ∧ q.state = _ ∧
        q.current = play ∧ q.microsteps = 1 := started_of_reacts hreacts rfl
  have hlimited : Stops playerTree ({} : Registry Unit Unit) (Config.withLimit {} 1) q _ :=
    .limited (hstate ▸ rfl) hone.ge
  have hrun' := (run_of_started (hst.withLimit 1)).trans (loop_of_stops _ hlimited)
  refine ⟨_, _, hrun, rfl, rfl, hrun', ?_⟩
  rw [hcurrent]
  rfl

end Macrostep

end Statechart
