import Statechart.Proofs.Sequence

-- What a microstep leaves alone: everything outside of the domains of the transitions taken.

namespace Statechart

variable {C S : Type} {t : Tree} {r r' : Registry C S} {e e' : Event} {c : Configuration} {x x' : C}
  {h : History} {us : List Transition} {u : Transition} {m : Microstep C} {a d g n : NodeIndex}

-- `n` does not lie below the domain of any of the transitions.
def Tree.Outside (t : Tree) (us : List Transition) (n : NodeIndex) : Prop :=
  ∀ u ∈ us, ∀ d, t.domain u = some d → d ∉ t.ancestors n

theorem Tree.outside_iff : t.Outside us n ↔ ∀ u ∈ us, t.exits u n = false := by
  simp only [Outside, Bool.eq_false_iff, Ne, exits_iff, not_exists, not_and]

-- Whatever compound node lies above the source and all targets lies at or above the domain.
theorem Tree.WellFormed.exists_domain_below (wf : t.WellFormed) (ht : u.targets ≠ [])
    (hk : (t.node a).kind = .compound) (hs : a ∈ t.ancestors u.source)
    (ha : ∀ y ∈ u.targets, a ∈ t.ancestors y) : ∃ d, t.domain u = some d ∧ a ∈ t.path d := by
  simp only [Tree.domain, Tree.isTargetless_iff, ht, if_false]
  split
  case isTrue => exact ⟨_, rfl, Tree.mem_path_of_ancestor hs⟩
  case isFalse =>
    refine ⟨_, rfl, ?_⟩
    rw [Tree.commonAncestor]
    have hnearest : ((t.isCompound a || (t.node a).parent.isNone) &&
        u.targets.all (t.isDescendant · a)) = true := by
      simpa [hk] using ha
    cases hf : (t.ancestors u.source).find? _ with
    | none => exact absurd hnearest (List.find?_eq_none.mp hf a hs)
    | some d =>
      obtain ⟨_, before, after, he, hbefore⟩ := List.find?_eq_some_iff_append.mp hf
      have hdecreasing := (List.pairwise_cons.mp (wf.path_decreasing u.source)).right
      rw [he, List.pairwise_append, List.pairwise_cons] at hdecreasing
      have had : a = d ∨ a ∈ after := by
        rw [he, List.mem_append, List.mem_cons] at hs
        exact hs.resolve_left fun hb => by simpa [hnearest] using hbefore a hb
      have hle : a ≤ d := had.elim le_of_eq fun h => (hdecreasing.right.left.left a h).le
      have hds : d ∈ t.ancestors u.source := by simp [he]
      cases wf.comparable (Tree.mem_path_of_ancestor hs) (Tree.mem_path_of_ancestor hds)
      case inl h => exact h
      case inr h => exact (wf.path_le h).antisymm hle ▸ Tree.self_mem_path

namespace Plan

variable {p q : Plan C}

-- `f` writes down `chunk` when it plans for `a`.
def Writes {ε α : Type} (f : Plan C → α → Except ε (Plan C)) (a : α) (chunk : List Planned) :
    Prop :=
  ∃ p q, f p a = .ok q ∧ q.actions = p.actions ++ chunk

-- A loop writes down one chunk after the other.
theorem foldlM_writes {ε α : Type} {f : Plan C → α → Except ε (Plan C)} {l : List α}
    (hf : ∀ p a q, f p a = .ok q → p.actions <+: q.actions) (h : l.foldlM f p = .ok q) :
    ∃ chunks, l.Forall₂ (Writes f) chunks ∧ q.actions = p.actions ++ chunks.flatten := by
  induction l generalizing p with
  | nil =>
    cases h
    exact ⟨[], .nil, by simp⟩
  | cons a rest ih =>
    obtain ⟨p₁, h₁, h⟩ := Microstep.bind_eq_ok.mp h
    obtain ⟨chunk, hchunk⟩ := hf p a p₁ h₁
    obtain ⟨chunks, hchunks, hq⟩ := ih h
    refine ⟨chunk :: chunks, .cons ⟨p, p₁, h₁, hchunk.symm⟩ hchunks, ?_⟩
    rw [hq, ← hchunk, List.flatten_cons, List.append_assoc]

end Plan

namespace Microstep

theorem enterNode_extends {p q : Plan C} (h : enterNode t r e p n = .ok q) :
    p.actions <+: q.actions := by
  obtain ⟨p₁, h₁, h⟩ := bind_eq_ok.mp h
  have hp := Plan.enter_extends h₁
  cases h
  exact hp

-- All that is planned is planned for the exited nodes, then for the transitions and then for the
-- entered nodes, one after the other.
structure Attributed (t : Tree) (r : Registry C S) (e : Event) (us : List Transition)
    (m : Microstep C) : Prop where
  exits : ∃ chunks, m.exited.Forall₂ (Plan.Writes (Plan.exit r e t)) chunks ∧
    m.exitActions = chunks.flatten
  transitions : ∃ chunks, us.Forall₂ (Plan.Writes (addTransition t r e)) chunks ∧
    m.transitionActions = chunks.flatten
  entries : ∃ chunks, m.entered.Forall₂ (Plan.Writes (enterNode t r e)) chunks ∧
    m.entryActions = chunks.flatten

theorem take_attributed (hm : take t r e c x h us = .ok m) : Attributed t r e us m := by
  obtain ⟨_, p, q, s, hparts, rfl⟩ := take_eq_ok_iff.mp hm
  exact {
    exits := by simpa using Plan.foldlM_writes (fun _ _ _ => Plan.exit_extends) hparts.exits
    transitions := by
      simpa using Plan.foldlM_writes (f := addTransition t r e) (fun _ _ _ => Plan.addAll_extends)
        hparts.transitions
    entries := by simpa using Plan.foldlM_writes (fun _ _ _ => enterNode_extends) hparts.entries }

-- `n` is active after the microstep exactly if it was before, and is neither left nor entered.
structure Untouched (c : Configuration) (m : Microstep C) (n : NodeIndex) : Prop where
  active_iff : n ∈ m.configuration ↔ n ∈ c
  not_exited : n ∉ m.exited
  not_entered : n ∉ m.entered

section Frame

variable (wf : t.WellFormed) (hc : c.Legal t) (hs : Selected t c us)
include wf hc hs

theorem untouched (hh : h.Below t) (hm : take t r e c x h us = .ok m) (hn : t.Outside us n) :
    Untouched c m n := by
  have hn := Tree.outside_iff.mp hn
  obtain ⟨hexited, hentered⟩ := take_lists hm
  constructor
  case active_iff =>
    rw [(take_eq_ok hm).left, mem_next_of_not_exits wf hc (historyAfter_below wf hh) hs hn]
  case not_exited =>
    rw [hexited, mem_exitedBy wf]
    rintro ⟨_, u, hu, hx⟩
    simp [hn u hu] at hx
  case not_entered =>
    rw [hentered, mem_enteredBy wf hc hh hs]
    rintro ⟨u, hu, he⟩
    simpa [hn u hu] using he.exits

-- No transition goes beyond the domain of another one.
theorem outside_of_domain (hu : u ∈ us) (hd : t.domain u = some d) (ha : a ∈ t.path d) :
    t.Outside us a := by
  intro v hv d' hd' hda
  have hx := hs.domain_remains wf hc hu hv hd
  exact absurd (Tree.exits_iff.mpr ⟨d', hd', wf.ancestors_of_ancestor_path hda ha⟩) (by simp [hx])

omit hc in
-- Nor into a part of the tree without a source, unless it leaves this part as a whole.
theorem outside_of_region (hg : ∀ u ∈ us, g ∉ t.path u.source) (ho : t.Outside us g)
    (hn : g ∈ t.path n) : t.Outside us n := by
  intro u hu d hd hdn
  have hds := (wf.domain_spec (hs.declared hu) hd).right.left
  cases wf.comparable (Tree.mem_path_of_ancestor hdn) hn
  case inl hdg =>
    cases Tree.mem_path.mp hdg
    case inl he =>
      subst he
      exact hg u hu hds
    case inr hdg => exact ho u hu d hd hdg
  case inr hgd => exact hg u hu (wf.path_trans hgd hds)

end Frame

-- A microstep that takes `us` is confined to what lies below the domains of `us`. The nodes at and
-- above the domains are outside of them, as is every part of the tree in which nothing is taken and
-- that no transition leaves as a whole, and nothing is planned for what is outside.
structure Confined (t : Tree) (r : Registry C S) (e : Event) (c : Configuration)
    (us : List Transition) (m : Microstep C) : Prop where
  untouched {n : NodeIndex} : t.Outside us n → Untouched c m n
  domain {u : Transition} {d a : NodeIndex} : u ∈ us → t.domain u = some d → a ∈ t.path d →
    t.Outside us a
  common {u : Transition} {a : NodeIndex} : u ∈ us → u.targets ≠ [] →
    (t.node a).kind = .compound → a ∈ t.ancestors u.source → (∀ y ∈ u.targets, a ∈ t.ancestors y) →
    t.Outside us a
  region {g n : NodeIndex} : (∀ u ∈ us, g ∉ t.path u.source) → t.Outside us g → g ∈ t.path n →
    t.Outside us n
  attributed : Attributed t r e us m

theorem take_confined {machineId : String} {root : Definition.State} {policy : GuardPolicy}
    {eventless : Bool} (hb : root.build machineId = .ok t) (hc : c.isLegal t = true)
    (hh : h.Below t) (hs : (select t r policy c x e eventless).result = .ok us)
    (hm : take t r' e' c x' h us = .ok m) : Confined t r' e' c us m := by
  have wf := Definition.State.build_wellFormed hb
  have hc := (Configuration.isLegal_iff wf).mp hc
  have hs := select_selected wf hc hs
  exact {
    untouched := untouched wf hc hs hh hm
    domain := outside_of_domain wf hc hs
    common := fun hu ht hk hsource htargets =>
      have ⟨_, hd, ha⟩ := wf.exists_domain_below ht hk hsource htargets
      outside_of_domain wf hc hs hu hd ha
    region := outside_of_region wf hs
    attributed := take_attributed hm }

end Microstep

-- A phone that connects while a page is open on it.
def phone : Definition.State :=
  .mk { key := "m", shape := .parallel } [
    .mk { key := "network", initial := some "offline" } [
      .mk {
        key := "offline"
        transitions := [(.event "CONNECT", { targets := ["online"] })] } [],
      .mk { key := "online", entry := [.log "connected"] } []],
    .mk { key := "page", initial := some "list" } [
      .mk { key := "list", transitions := [(.event "OPEN", { targets := ["detail"] })] } [],
      .mk { key := "detail", entry := [.log "opened"], exit := [.log "closed"] } []]]

def phoneTree : Tree := ((Definition.Layout.ofState "m" phone).lower "m").value

theorem phone_build : phone.build "m" = .ok phoneTree :=
  Definition.State.build_of_problems (by decide +kernel)

def connect : Event := ⟨"CONNECT", .null⟩

-- The page stays as it is, and only the connection is logged.
theorem Microstep.take_confined_phone :
    let c : Configuration := .ofList [0, 1, 2, 4, 6]
    let us := (phoneTree.node 2).transitions
    ∃ m, Microstep.take phoneTree ({} : Registry Unit Unit) connect c () ∅ us = .ok m ∧
      Confined phoneTree ({} : Registry Unit Unit) connect c us m ∧ phoneTree.Outside us 6 ∧
      m.configuration = .ofList [0, 1, 3, 4, 6] ∧
      m.actions = [.cancelOwned 2, .log "connected"] := by
  intro c us
  have hs : (select phoneTree ({} : Registry Unit Unit) .treatAsFalse c () connect false).result =
      .ok us := Evaluation.eq_ok_of_toOption (by decide +kernel)
  obtain ⟨m, hm, hcm, ha⟩ : ∃ m, take phoneTree ({} : Registry Unit Unit) connect c () ∅ us =
      .ok m ∧ m.configuration = .ofList [0, 1, 3, 4, 6] ∧
        m.actions = [.cancelOwned 2, .log "connected"] := exists_eq_ok (by decide +kernel)
  refine ⟨m, hm, ?_, ?_, hcm, ha⟩
  · exact take_confined phone_build (by decide +kernel) History.empty_within.below hs hm
  · exact Tree.outside_iff.mpr (by decide +kernel)

end Statechart
