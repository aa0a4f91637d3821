import Statechart.Proofs.Build

-- What is required of a definition, and what it means that a list of problems has an entry of its
-- own for each requirement that is not met.

namespace Statechart.Definition

-- The checks are made in this order.
inductive Stage
  | ids
  | references
  | shape
  | names

-- One requirement for each place to which a rule applies: `n` is a state, `k` one of its
-- transitions or invocations, and `j` one of several targets or actions.
inductive Requirement
  | ownId (n : NodeIndex)
  | initial (n : NodeIndex)
  | target (n : NodeIndex) (k j : Nat)
  | reference (n : NodeIndex) (k : Nat)
  | default (n : NodeIndex) (j : Nat)
  | children (n : NodeIndex)
  | region (n : NodeIndex)
  | parent (n : NodeIndex)
  | inside (n : NodeIndex) (j : Nat)
  | together (n : NodeIndex) (k : Nat)
  | entry (n : NodeIndex) (j : Nat)
  | timer (n : NodeIndex) (j : Nat)
  | exit (n : NodeIndex) (j : Nat)
  | action (n : NodeIndex) (k j : Nat)
  | guard (n : NodeIndex) (k : Nat)
  | service (n : NodeIndex) (k : Nat)

namespace Requirement

def node : Requirement → NodeIndex
  | ownId n | initial n | target n _ _ | reference n _ | default n _ | children n | region n
  | parent n | inside n _ | together n _ | entry n _ | timer n _ | exit n _ | action n _ _
  | guard n _ | service n _ => n

def stage : Requirement → Stage
  | ownId _ => .ids
  | initial _ | target .. | reference .. | default .. => .references
  | children _ | region _ | parent _ | inside .. | together .. => .shape
  | entry .. | timer .. | exit .. | action .. | guard .. | service .. => .names

end Requirement

namespace Layout

def IsHistory (l : Layout) (n : NodeIndex) : Prop := ∃ kind, l.kind n = .history kind

def parent? (l : Layout) (n : NodeIndex) : Option NodeIndex := (l.placed n).ancestors.head?

-- Neither state lies above the other, and the nearest one above both is parallel.
def Orthogonal (l : Layout) (a b : NodeIndex) : Prop :=
  a ≠ b ∧ b ∉ (l.placed a).ancestors ∧ a ∉ (l.placed b).ancestors ∧ ∃ p,
    (l.placed a).ancestors.find? (· ∈ (l.placed b).ancestors) = some p ∧ l.kind p = .parallel

end Layout

variable {C S : Type}

-- The action of a state `id` needs something that is not registered.
inductive Unregistered (r : Registry C S) (id : String) : Action → Problem → Prop
  | action {name} : r.hasAction name = false →
      Unregistered r id (.named name) (.unknownAction id name)
  | delay {s : Send} {name} : s.delay = some (.named name) → r.hasDelay name = false →
      Unregistered r id (.send s) (.unknownDelay id name)
  | service {name actor} : r.hasService name = false →
      Unregistered r id (.spawn name actor) (.unknownService id name)

-- The rules of a definition, and how it is reported that one of them is broken.
inductive Breaks (l : Layout) (r : Registry C S) : Requirement → Problem → Prop
  | duplicateId {n m} : m < n → n < l.size → l.nodeId m = l.nodeId n →
      Breaks l r (.ownId n) (.duplicateId (l.nodeId n))
  | missingInitial {n} : l.kind n = .compound → (l.placed n).spec.initial = none →
      Breaks l r (.initial n) (.missingInitial (l.nodeId n))
  | invalidInitial {n key} : l.kind n = .compound → (l.placed n).spec.initial = some key →
      (∀ c, l.childWithKey? n key = some c → l.IsHistory c) →
      Breaks l r (.initial n) (.invalidInitial (l.nodeId n) key)
  | unresolvedTarget {n k j on u target} : (l.listeners n)[k]? = some (on, u) →
      u.targets[j]? = some target → l.target? n target = none →
      Breaks l r (.target n k j) (.unresolvedTarget (l.nodeId n) target)
  | unresolvedReference {n k on u reference} : (l.listeners n)[k]? = some (on, u) →
      u.guard = some (.inState reference) → l.reference? reference = none →
      Breaks l r (.reference n k) (.unresolvedStateReference (l.nodeId n) reference)
  | unresolvedDefault {n j target} : (l.placed n).spec.targets[j]? = some target →
      l.target? n target = none →
      Breaks l r (.default n j) (.unresolvedTarget (l.nodeId n) target)
  | finalWithChildren {n} : l.kind n = .final → (l.placed n).children ≠ [] →
      Breaks l r (.children n) (.finalWithChildren (l.nodeId n))
  | historyWithChildren {n} : l.IsHistory n → (l.placed n).children ≠ [] →
      Breaks l r (.children n) (.historyWithChildren (l.nodeId n))
  | emptyParallel {n} : l.kind n = .parallel → (∀ c ∈ (l.placed n).children, l.IsHistory c) →
      Breaks l r (.children n) (.emptyParallel (l.nodeId n))
  | finalInParallel {n p} : l.kind n = .final → l.parent? n = some p → l.kind p = .parallel →
      Breaks l r (.region n) (.finalInParallel (l.nodeId n))
  | historyAtRoot {n} : l.IsHistory n → l.parent? n = none →
      Breaks l r (.parent n) (.historyAtRoot (l.nodeId n))
  | invalidDefault {n p j target d} : l.IsHistory n → l.parent? n = some p →
      (l.placed n).spec.targets[j]? = some target → l.target? n target = some d →
      (p ∈ (l.placed d).ancestors → l.IsHistory d) →
      Breaks l r (.inside n j) (.invalidHistoryTarget (l.nodeId n) (l.nodeId d))
  | conflictingTargets {n k on u x y a b} {i j : Nat} : (l.listeners n)[k]? = some (on, u) →
      i < j → u.targets[i]? = some x → u.targets[j]? = some y → l.target? n x = some a →
      l.target? n y = some b → ¬ l.Orthogonal a b →
      Breaks l r (.together n k) (.conflictingTargets (l.nodeId n) on.toString)
  | entry {n j a p} : (l.placed n).spec.entry[j]? = some a → Unregistered r (l.nodeId n) a p →
      Breaks l r (.entry n j) p
  | timer {n j name} : (timers (l.placed n).spec)[j]? = some (.named name) →
      r.hasDelay name = false → Breaks l r (.timer n j) (.unknownDelay (l.nodeId n) name)
  | exit {n j a p} : (l.placed n).spec.exit[j]? = some a → Unregistered r (l.nodeId n) a p →
      Breaks l r (.exit n j) p
  | action {n k j on u a p} : (l.listeners n)[k]? = some (on, u) → u.actions[j]? = some a →
      Unregistered r (l.nodeId n) a p → Breaks l r (.action n k j) p
  | guard {n k on u name} : (l.listeners n)[k]? = some (on, u) → u.guard = some (.named name) →
      r.hasGuard name = false → Breaks l r (.guard n k) (.unknownGuard (l.nodeId n) name)
  | service {n k i} : (l.placed n).spec.invocations[k]? = some i →
      r.hasService i.service = false →
      Breaks l r (.service n k) (.unknownService (l.nodeId n) i.service)

theorem Unregistered.unique {r : Registry C S} {id : String} {a : Action} {p p' : Problem}
    (h : Unregistered r id a p) (h' : Unregistered r id a p') : p = p' := by
  cases h <;> cases h' <;> simp_all

-- There is only one way to break a rule.
theorem Breaks.unique {l : Layout} {r : Registry C S} {q : Requirement} {p p' : Problem}
    (h : Breaks l r q p) (h' : Breaks l r q p') : p = p' := by
  cases h with
  | entry ha hp | exit ha hp =>
    cases h' with
    | _ ha' hp' =>
      cases ha.symm.trans ha'
      exact hp.unique hp'
  | action hk ha hp =>
    cases h' with
    | action hk' ha' hp' =>
      cases hk.symm.trans hk'
      cases ha.symm.trans ha'
      exact hp.unique hp'
  | _ => cases h' <;> simp_all [Layout.IsHistory]

-- While the first requirement is not met, the second one is not looked at: names are looked up
-- last, the children of a final state come before its parent, and only a transition that could be
-- resolved is asked whether its targets go together.
inductive Hides : Requirement → Requirement → Prop
  | names {q q' : Requirement} : q.stage ≠ .names → q'.stage = .names → Hides q q'
  | children {n} : Hides (.children n) (.region n)
  | target {n k j} : Hides (.target n k j) (.together n k)
  | reference {n k} : Hides (.reference n k) (.together n k)

-- A broken rule that no other one hides.
def Reported (l : Layout) (r : Registry C S) (q : Requirement) (p : Problem) : Prop :=
  Breaks l r q p ∧ ∀ q' p', Breaks l r q' p' → ¬ Hides q' q

-- `ps` has one entry for each of the requirements for which `R` gives a problem, and no others.
def Enumerates (ps : List Problem) (R : Requirement → Problem → Prop) : Prop :=
  ∃ entries : List (Requirement × Problem), entries.map Prod.snd = ps ∧
    (entries.map Prod.fst).Nodup ∧ ∀ q p, (q, p) ∈ entries ↔ R q p

def Among (A : Requirement → Prop) (R : Requirement → Problem → Prop) (q : Requirement)
    (p : Problem) : Prop :=
  A q ∧ R q p

namespace Enumerates

variable {α : Type} {A B : Requirement → Prop} {R R' : Requirement → Problem → Prop}
  {ps qs : List Problem} {q₀ : Requirement} {p₀ : Problem}

theorem congr (h : Enumerates ps R) (hR : ∀ q p, R q p ↔ R' q p) : Enumerates ps R' :=
  have ⟨entries, hps, hn, hmem⟩ := h
  ⟨entries, hps, hn, fun q p => (hmem q p).trans (hR q p)⟩

theorem scope (h : Enumerates ps (Among A R)) (hA : ∀ q, A q ↔ B q) : Enumerates ps (Among B R) :=
  h.congr fun q _ => and_congr_left fun _ => hA q

theorem nil (h : ∀ q p, ¬ R q p) : Enumerates [] R :=
  ⟨[], rfl, List.nodup_nil, fun q p => by simp [h q p]⟩

-- Some requirement is not met exactly if there is an entry.
theorem eq_nil_iff (h : Enumerates ps R) : ps = [] ↔ ∀ q p, ¬ R q p := by
  obtain ⟨entries, rfl, _, hmem⟩ := h
  rw [List.map_eq_nil_iff, List.eq_nil_iff_forall_not_mem]
  exact ⟨fun h q p hR => h (q, p) ((hmem q p).mpr hR), fun h x hx => h x.1 x.2 ((hmem _ _).mp hx)⟩

theorem mem_iff {p : Problem} (h : Enumerates ps R) : p ∈ ps ↔ ∃ q, R q p := by
  obtain ⟨entries, rfl, _, hmem⟩ := h
  simp [← hmem]

theorem met (h : ∀ p, ¬ R q₀ p) : Enumerates [] (Among (· = q₀) R) :=
  nil fun _ p => by
    rintro ⟨rfl, hR⟩
    exact h p hR

theorem broken (h : R q₀ p₀) (hu : ∀ p, R q₀ p → p = p₀) : Enumerates [p₀] (Among (· = q₀) R) := by
  refine ⟨[(q₀, p₀)], rfl, by simp, fun q p => ?_⟩
  rw [List.mem_singleton, Prod.mk.injEq]
  refine and_congr_right fun hq => ?_
  subst hq
  exact ⟨fun hp => hp ▸ h, hu p⟩

theorem append (hp : Enumerates ps (Among A R)) (hq : Enumerates qs (Among B R))
    (hAB : ∀ q, A q → ¬ B q) : Enumerates (ps ++ qs) (Among (fun q => A q ∨ B q) R) := by
  obtain ⟨xs, rfl, hxs, hx⟩ := hp
  obtain ⟨ys, rfl, hys, hy⟩ := hq
  refine ⟨xs ++ ys, by simp, ?_, fun q p => ?_⟩
  · rw [List.map_append, List.nodup_append]
    refine ⟨hxs, hys, ?_⟩
    rintro _ hqx _ hqy rfl
    obtain ⟨⟨q, p⟩, hxq, rfl⟩ := List.mem_map.mp hqx
    obtain ⟨⟨_, p'⟩, hyq, rfl⟩ := List.mem_map.mp hqy
    exact hAB _ ((hx _ _).mp hxq).left ((hy _ _).mp hyq).left
  · rw [List.mem_append, hx, hy]
    simp only [Among, or_and_right]

theorem pair {q₁ q₂ : Requirement} (hp : Enumerates ps (Among (· = q₁) R))
    (hq : Enumerates qs (Among (· = q₂) R)) (h : q₁ ≠ q₂) :
    Enumerates (ps ++ qs) (Among (fun q => q = q₁ ∨ q = q₂) R) :=
  hp.append hq fun _ h₁ h₂ => h (h₁.symm.trans h₂)

-- One after the other, the members of a list account for the requirements that belong to them.
theorem flatMap {l : List α} {f : α → List Problem} {A : Nat → Requirement → Prop}
    (h : ∀ j a, l[j]? = some a → Enumerates (f a) (Among (A j) R))
    (hA : ∀ i j q, A i q → A j q → i = j) (hR : ∀ j q p, A j q → R q p → j < l.length) :
    Enumerates (l.flatMap f) (Among (fun q => ∃ j, A j q) R) := by
  have hbounded : Enumerates (l.flatMap f) (Among (fun q => ∃ j < l.length, A j q) R) := by
    clear hR
    induction l generalizing A with
    | nil => exact .nil (by simp [Among])
    | cons a rest ih =>
      have hrest := ih (fun j a ha => h (j + 1) a ha) fun i j q hi hj =>
        Nat.succ_injective (hA _ _ q hi hj)
      refine ((h 0 a rfl).append hrest ?_).congr fun q p => and_congr_left fun _ => ?_
      · rintro q h0 ⟨j, _, hj⟩
        exact absurd (hA _ _ q h0 hj) (Nat.succ_ne_zero j).symm
      · constructor
        case mp =>
          rintro (h0 | ⟨j, hj, hq⟩)
          · exact ⟨0, Nat.succ_pos _, h0⟩
          · exact ⟨j + 1, Nat.succ_lt_succ hj, hq⟩
        case mpr =>
          rintro ⟨j, hj, hq⟩
          cases j with
          | zero => exact .inl hq
          | succ j => exact .inr ⟨j, Nat.lt_of_succ_lt_succ hj, hq⟩
  refine hbounded.congr fun q p => and_congr_left fun hq => exists_congr fun j => ?_
  exact and_iff_right_of_imp fun hj => hR j q p hj hq

-- Each member accounts for one requirement.
theorem each {l : List α} {f : α → List Problem} {c : Nat → Requirement}
    (hc : Function.Injective c) (hR : ∀ j p, R (c j) p → j < l.length)
    (h : ∀ j a, l[j]? = some a → Enumerates (f a) (Among (· = c j) R)) :
    Enumerates (l.flatMap f) (Among (fun q => ∃ j, q = c j) R) := by
  refine flatMap h ?_ ?_
  · rintro i j _ rfl hj
    exact hc hj
  · rintro j _ p rfl hq
    exact hR j p hq

end Enumerates

end Statechart.Definition
