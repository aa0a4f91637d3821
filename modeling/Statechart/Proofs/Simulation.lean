import Statechart.Proofs.Macrostep

-- The same macrostep, its microsteps committed in two ways.

namespace Statechart

variable {C S σ σ' : Type}

def Progress.withShell (p : Progress σ C) (x : σ') : Progress σ' C where
  shell := x
  state := p.state
  current := p.current
  raised := p.raised
  microsteps := p.microsteps
  guardErrors := p.guardErrors
  error := p.error
  lastEvent := p.lastEvent

def Progress.map (f : σ → σ') (p : Progress σ C) : Progress σ' C := p.withShell (f p.shell)

namespace Macrostep

-- What `commit` accepts or refuses `commit'` accepts or refuses from a related shell, unless
-- `commit` refuses and leaves a shell that does not count.
structure Simulates (R : σ → σ' → Prop) (Void : σ → Prop) (commit : Commit σ C)
    (commit' : Commit σ' C) : Prop where
  accepts {x : σ} {x' : σ'} {m : Microstep C} {e : Event} {y : σ} : R x x' →
    (commit x m e).outcome = .ok (y, none) →
    ∃ y', R y y' ∧ (commit' x' m e).outcome = .ok (y', none)
  refuses {x : σ} {x' : σ'} {m : Microstep C} {e : Event} {y : σ} {err : ExecutionError} :
    R x x' → (commit x m e).outcome = .ok (y, some err) →
    Void y ∨ ∃ y', R y y' ∧ (commit' x' m e).outcome = .ok (y', some err)

-- The other way of committing gets to `p` as well, unless that does not count.
def Matches (R : σ → σ' → Prop) (Void : σ → Prop) (p : Progress σ C)
    (o : Except Crash (Progress σ' C)) : Prop :=
  Void p.shell ∨ ∃ y, R p.shell y ∧ o = .ok (p.withShell y)

variable {t : Tree} {r : Registry C S} {config : Config} {commit : Commit σ C}
  {commit' : Commit σ' C} {R : σ → σ' → Prop} {Void : σ → Prop} {p q p' : Progress σ C}
  {us : List Transition} {x : σ'} {c : Choice C} {m : Microstep C} {s : MachineState C}
  {trigger : Trigger} {shell : σ}

theorem Settled.withShell (h : Settled t r config p) (x : σ') :
    Settled t r config (p.withShell x) :=
  ⟨h.running, h.below_limit, h.none_enabled⟩

theorem Offers.withShell (h : Offers t r config p q us) (x : σ') :
    Offers t r config (p.withShell x) (q.withShell x) us := by
  cases h with
  | always hd hl hs hus => exact .always (p := p.withShell x) hd hl hs hus
  | raised hs hr he hus => exact .raised (hs.withShell x) hr he hus

theorem Stops.withShell (h : Stops t r config p p') (x : σ') :
    Stops t r config (p.withShell x) (p'.withShell x) := by
  cases h with
  | done hd => exact .done hd
  | limited hd hl => exact .limited (p := p.withShell x) hd hl
  | failed hd hl hs => exact .failed (p := p.withShell x) hd hl hs
  | resting hs hr => exact .resting (hs.withShell x) hr
  | raised hs hr he => exact .raised (hs.withShell x) hr he

theorem ofFault_eq_step {y : Except Fault (Microstep C)}
    (h : (ofFault y).outcome = .ok (.step m)) : y = .ok m := by
  match y with
  | .ok m' =>
    cases h
    rfl
  | .error (.failed err) => cases h
  | .error .illegal => cases h

-- The rest of the macrostep decides.
theorem begin_matches (hs : Simulates R Void commit commit') (hR : R q.shell x)
    (hloop : ∀ m shell y, c = .step m → (commit q.shell m q.current).outcome = .ok (shell, none) →
      R shell y → (loop t r config commit (q.accept shell m)).outcome = .ok p' →
      Matches R Void p' (loop t r config commit' ((q.accept shell m).withShell y)).outcome)
    (h : (begin t r config commit q c).outcome = .ok p') :
    Matches R Void p' (begin t r config commit' (q.withShell x) c).outcome := by
  cases c with
  | nothing =>
    cases h
    exact .inr ⟨x, hR, rfl⟩
  | failed err =>
    cases h
    exact .inr ⟨x, hR, rfl⟩
  | step m =>
    rw [begin, Turn.outcome_bind]
    rcases begin_step_ok h with ⟨shell, err, hc, rfl⟩ | ⟨shell, hc, h⟩
    · rcases hs.refuses hR hc with hvoid | ⟨y, hy, hc'⟩
      · exact .inl hvoid
      · refine .inr ⟨y, hy, ?_⟩
        change (commit' x m q.current).outcome.bind _ = _
        rw [hc']
        rfl
    · obtain ⟨y, hy, hc'⟩ := hs.accepts hR hc
      have hm := hloop m shell y rfl hc hy h
      change Matches R Void p' ((commit' x m q.current).outcome.bind _)
      rw [hc']
      exact hm

theorem loop_matches (hs : Simulates R Void commit commit') (hR : R p.shell x)
    (h : (loop t r config commit p).outcome = .ok p') :
    Matches R Void p' (loop t r config commit' (p.withShell x)).outcome := by
  induction p using (round_wellFounded t r config commit).induction generalizing x with
  | h p ih =>
    rcases loop_cases t r config p with ⟨q, us, ho⟩ | ⟨e, rest, hset, hr, he⟩ | ⟨q, hq⟩
    · rw [loop_of_offers ho] at h
      rw [loop_of_offers (ho.withShell x)]
      have hR : R q.shell x := offers_shell ho ▸ hR
      change Matches R Void p' ((ofFault (attempt t r q us)).outcome.bind _)
      match hc : (ofFault (attempt t r q us)).outcome with
      | .error _ =>
        rw [hc] at h
        contradiction
      | .ok c =>
        rw [hc] at h
        refine begin_matches hs hR (fun m shell y hm hcm hy h => ?_) h
        exact ih _ (.microstep ho ⟨ofFault_eq_step (hm ▸ hc), hcm⟩) hy h
    · rw [loop_of_skip hset hr he] at h
      rw [loop_of_skip (hset.withShell x) hr he]
      exact ih _ (.skip hset hr he) hR h
    · obtain rfl := Except.ok.inj ((loop_of_stops commit hq).symm.trans h)
      rw [loop_of_stops commit' (hq.withShell x)]
      exact .inr ⟨x, stops_shell hq ▸ hR, rfl⟩

-- Two ways of committing microsteps that agree on each lead to the same macrostep.
theorem run_matches (hs : Simulates R Void commit commit') (hR : R shell x)
    (h : (run t r config commit shell s trigger).outcome = .ok p) :
    Matches R Void p (run t r config commit' x s trigger).outcome := by
  have hbegin {q : Progress σ C} {c : Choice C} (hR : R q.shell x)
      (h : (begin t r config commit q c).outcome = .ok p) :
      Matches R Void p (begin t r config commit' (q.withShell x) c).outcome :=
    begin_matches hs hR (fun _ _ _ _ _ hy h => loop_matches hs hy h) h
  cases trigger with
  | start =>
    rw [run_start_outcome] at h ⊢
    match hc : (ofFault (Microstep.initial t r .init s.context s.history)).outcome with
    | .error _ =>
      rw [hc] at h
      contradiction
    | .ok c =>
      rw [hc] at h
      exact hbegin (q := { shell := shell, state := s, current := .init }) hR h
  | event e =>
    rw [run_event_outcome] at h ⊢
    match hc : (choose t r config s e false).outcome with
    | .error _ =>
      rw [hc] at h
      contradiction
    | .ok c =>
      rw [hc] at h
      exact hbegin (q := { shell := shell, state := s, current := e : Progress σ C }.noteErrors c.2)
        hR h

-- Forgetting a part of the shell with every commit is forgetting it in the end.
section Forget

variable {f : σ → σ'} (hf : ∀ s m e, (fun y => (f y.1, y.2)) <$> commit s m e = commit' (f s) m e)
include hf

theorem begin_map (hloop : ∀ m shell, Progress.map f <$> loop t r config commit (q.accept shell m) =
      loop t r config commit' ((q.accept shell m).map f)) :
    Progress.map f <$> begin t r config commit q c = begin t r config commit' (q.map f) c := by
  cases c with
  | nothing | failed err => exact map_pure ..
  | step m =>
    rw [begin, begin, map_bind]
    change _ = commit' (f q.shell) m q.current >>= _
    rw [← hf, bind_map_left]
    refine bind_congr fun y => ?_
    obtain ⟨shell, refusal⟩ := y
    cases refusal with
    | some err => exact map_pure ..
    | none => exact hloop m shell

theorem loop_map (p : Progress σ C) :
    Progress.map f <$> loop t r config commit p = loop t r config commit' (p.map f) := by
  induction p using loop.induct config with
  | case1 p hd =>
    unfold loop
    rw [if_pos hd, if_pos (show (p.map f).state.done = true from hd), map_pure]
  | case2 p hd hl =>
    unfold loop
    rw [if_neg hd, if_neg (show ¬(p.map f).state.done = true from hd), if_pos hl,
      if_pos (show config.maxMicrosteps ≤ (p.map f).microsteps from hl), map_pure]
    rfl
  | case3 p hd hl hstep hnothing hraised =>
    unfold loop
    rw [if_neg hd, if_neg (show ¬(p.map f).state.done = true from hd), if_neg hl,
      if_neg (show ¬config.maxMicrosteps ≤ (p.map f).microsteps from hl), map_bind]
    refine bind_congr fun y => ?_
    obtain ⟨c, errors⟩ := y
    cases c with
    | failed err => exact map_pure ..
    | step m =>
      exact begin_map (q := p.noteErrors errors) (c := .step m) hf fun m s => hstep errors m s
    | nothing =>
      dsimp only
      split
      case h_1 hr =>
        split
        case h_1 => exact map_pure ..
        case h_2 hr' => cases hr.symm.trans hr'
      case h_2 e rest hr =>
        split
        case h_1 hr' => cases hr.symm.trans hr'
        case h_2 hr' =>
          cases hr.symm.trans hr'
          rw [map_bind]
          refine bind_congr fun y => ?_
          obtain ⟨c, errors'⟩ := y
          cases c with
          | failed err => exact map_pure ..
          | nothing => exact hnothing errors e rest hr errors'
          | step m =>
            exact begin_map (c := .step m) hf fun m s => hraised errors e rest hr errors' m s

theorem run_map (shell : σ) (s : MachineState C) (trigger : Trigger) :
    Progress.map f <$> run t r config commit shell s trigger =
      run t r config commit' (f shell) s trigger := by
  cases trigger with
  | start | event =>
    rw [run, run, map_bind]
    refine bind_congr fun c => ?_
    exact begin_map hf fun _ _ => loop_map hf _

end Forget

end Macrostep

end Statechart
