import Statechart.Proofs.Policies

-- Which guards are evaluated when transitions are chosen, and in which order.

namespace Statechart

section UpTo

variable {α : Type} {p : α → Bool} {l l' : List α} {a : α}

-- The elements in front of the first one that `p` holds for, and that one.
def upTo (p : α → Bool) (l : List α) : List α := l.takeWhile (fun a => !p a) ++ (l.find? p).toList

theorem upTo_cons (a : α) (l : List α) : upTo p (a :: l) = a :: if p a then [] else upTo p l := by
  cases ha : p a <;> simp [upTo, ha]

theorem upTo_begins : upTo p l <+: l := by
  induction l with
  | nil => exact List.nil_prefix
  | cons a l ih =>
    rw [upTo_cons]
    split
    · exact List.prefix_cons_inj a |>.mpr List.nil_prefix
    · exact List.prefix_cons_inj a |>.mpr ih

theorem upTo_append_of_none (h : ∀ a ∈ l, p a = false) : upTo p (l ++ l') = l ++ upTo p l' := by
  induction l with
  | nil => rfl
  | cons a l ih =>
    obtain ⟨ha, hl⟩ := List.forall_mem_cons.mp h
    simp [upTo_cons, ha, ih hl]

theorem upTo_append_of_mem (ha : a ∈ l) (hp : p a = true) : upTo p (l ++ l') = upTo p l := by
  induction l with
  | nil => cases ha
  | cons b l ih =>
    rw [List.cons_append, upTo_cons, upTo_cons]
    split
    case isTrue => rfl
    case isFalse hb =>
      have hal : a ∈ l := (List.mem_cons.mp ha).resolve_left fun h => hb (h ▸ hp)
      rw [ih hal]

theorem exists_split_of_mem_upTo (h : a ∈ upTo p l) :
    ∃ before after, l = before ++ a :: after ∧ ∀ b ∈ before, p b = false := by
  induction l with
  | nil => cases h
  | cons b l ih =>
    rw [upTo_cons] at h
    rcases List.mem_cons.mp h with rfl | h
    case inl => exact ⟨[], l, rfl, List.forall_mem_nil _⟩
    case inr =>
      split at h
      case isTrue => cases h
      case isFalse hb =>
        obtain ⟨before, after, hl, hbefore⟩ := ih h
        refine ⟨b :: before, after, congrArg _ hl, List.forall_mem_cons.mpr ⟨?_, hbefore⟩⟩
        simpa using hb

end UpTo

namespace Evaluation

variable {α β : Type} {x : Evaluation α} {f : α → Evaluation β} {a : α}

-- The same, broken off by the first guard that fails.
def cut (x : Evaluation α) : Evaluation α :=
  match x.guardErrors with
  | [] => x
  | err :: _ => { checks := upTo (·.error?.isSome) x.checks, result := .error err }

theorem cut_of_flawless (h : x.guardErrors = []) : x.cut = x := by simp [cut, h]

theorem cut_of_flawed {err : ExecutionError} {errors : List ExecutionError}
    (h : x.guardErrors = err :: errors) :
    x.cut = { checks := upTo (·.error?.isSome) x.checks, result := .error err } := by
  simp [cut, h]

theorem cut_checks_begin : x.cut.checks <+: x.checks := by
  cases h : x.guardErrors with
  | nil => rw [cut_of_flawless h]
  | cons => rw [cut_of_flawed h]; exact upTo_begins

theorem cut_bind (h : x.result = .ok a) : (x >>= f).cut = x.cut >>= fun a => (f a).cut := by
  have herrors : (x >>= f).guardErrors = x.guardErrors ++ (f a).guardErrors := by
    rw [bind_of_ok h]
    exact List.filterMap_append
  cases hx : x.guardErrors with
  | nil =>
    have hnone : ∀ g ∈ x.checks, g.error?.isSome = false := by
      simpa [guardErrors, List.filterMap_eq_nil_iff] using hx
    rw [hx, List.nil_append] at herrors
    rw [cut_of_flawless hx, bind_of_ok (f := fun a => (f a).cut) h]
    cases hf : (f a).guardErrors with
    | nil =>
      rw [hf] at herrors
      rw [cut_of_flawless herrors, cut_of_flawless hf, bind_of_ok h]
    | cons err errors =>
      rw [hf] at herrors
      rw [cut_of_flawed herrors, cut_of_flawed hf, bind_of_ok h, upTo_append_of_none hnone]
  | cons err errors =>
    obtain ⟨g, hg, hge⟩ : ∃ g ∈ x.checks, g.error? = some err :=
      List.mem_filterMap.mp (show err ∈ x.guardErrors by simp [hx])
    rw [hx, List.cons_append] at herrors
    rw [cut_of_flawed herrors, cut_of_flawed hx, bind_of_ok h,
      upTo_append_of_mem hg (by simp [hge])]
    rfl

-- What comes of it under each policy if `x` goes past every failure.
def under (policy : GuardPolicy) (x : Evaluation α) : Evaluation α :=
  match policy with
  | .treatAsFalse => x
  | .propagate => x.cut

theorem under_checks_begin (policy : GuardPolicy) : (x.under policy).checks <+: x.checks := by
  cases policy with
  | treatAsFalse => exact List.prefix_refl _
  | propagate => exact cut_checks_begin

@[simp] theorem under_pure (policy : GuardPolicy) :
    (pure a : Evaluation α).under policy = pure a := by
  cases policy <;> rfl

theorem under_bind (policy : GuardPolicy) (h : x.result = .ok a) :
    (x >>= f).under policy = x.under policy >>= fun a => (f a).under policy := by
  cases policy with
  | treatAsFalse => rfl
  | propagate => exact cut_bind h

end Evaluation

-- Whether the transition listens for the event, or needs none.
def Transition.listens (u : Transition) (e : Event) (eventless : Bool) : Bool :=
  if eventless then u.on.isEventless else u.on.isExact e.name || u.on.isWildcard e.name

namespace Selection

-- `u` is tried before `v`: nodes further down come first, and on one node the transitions that name
-- the event, each group in document order.
def Sooner (t : Tree) (e : Event) (u v : Transition) : Prop :=
  v.source ∈ t.ancestors u.source ∨ u.source = v.source ∧
    (u.on.isExact e.name = true ∧ v.on.isExact e.name = false ∨
      u.on.isExact e.name = v.on.isExact e.name ∧ u.position < v.position)

-- All transitions that listen on the way from `leaf` to the root, in the order they are tried.
structure Walk (t : Tree) (e : Event) (eventless : Bool) (leaf : NodeIndex)
    (us : List Transition) : Prop where
  mem {u : Transition} : u ∈ us ↔ u ∈ (t.node u.source).transitions ∧ u.source ∈ t.path leaf ∧
    u.listens e eventless = true
  ordered : us.Pairwise (Sooner t e)

variable {C S : Type} {t : Tree} {r : Registry C S} {policy : GuardPolicy} {c : Configuration}
  {x : C} {e : Event} {eventless : Bool} {u v : Transition} {us : List Transition}
  {n leaf : NodeIndex}

theorem mem_candidates_iff {n : Node} :
    u ∈ candidates n e eventless ↔ u ∈ n.transitions ∧ u.listens e eventless = true := by
  cases eventless <;> simp [candidates, Transition.listens, and_or_left]

theorem transitions_increasing (wf : t.WellFormed) (n : NodeIndex) :
    (t.node n).transitions.Pairwise fun u v => u.position < v.position := by
  refine List.pairwise_iff_getElem.mpr fun i j hi hj hij => ?_
  rw [wf.position i _ (List.getElem?_eq_getElem hi), wf.position j _ (List.getElem?_eq_getElem hj)]
  exact hij

theorem candidates_ordered (wf : t.WellFormed) (n : NodeIndex) :
    (candidates (t.node n) e eventless).Pairwise (Sooner t e) := by
  have hgroup (q : Transition → Bool) (exact : Bool)
      (hq : ∀ u, q u = true → u.on.isExact e.name = exact) :
      ((t.node n).transitions.filter q).Pairwise (Sooner t e) := by
    refine ((transitions_increasing wf n).filter q).imp_of_mem fun hu hv huv => ?_
    obtain ⟨hu, hqu⟩ := List.mem_filter.mp hu
    obtain ⟨hv, hqv⟩ := List.mem_filter.mp hv
    exact .inr ⟨(wf.source _ hu).trans (wf.source _ hv).symm,
      .inr ⟨(hq _ hqu).trans (hq _ hqv).symm, huv⟩⟩
  have hwildcard (u : Transition) (h : u.on.isWildcard e.name = true) :
      u.on.isExact e.name = false := by
    cases hu : u.on <;> simp_all [Descriptor.isWildcard, Descriptor.isExact]
  cases eventless with
  | true =>
    refine hgroup _ false fun u hu => ?_
    cases hu' : u.on <;> simp_all [Descriptor.isEventless, Descriptor.isExact]
  | false =>
    refine List.pairwise_append.mpr
      ⟨hgroup _ true fun _ => id, hgroup _ false hwildcard, fun u hu v hv => ?_⟩
    obtain ⟨hu, hexact⟩ := List.mem_filter.mp hu
    obtain ⟨hv, hwild⟩ := List.mem_filter.mp hv
    exact .inr ⟨(wf.source _ hu).trans (wf.source _ hv).symm, .inl ⟨hexact, hwildcard v hwild⟩⟩

theorem path_ordered (wf : t.WellFormed) (n : NodeIndex) :
    (t.path n).Pairwise fun a b => b ∈ t.ancestors a := by
  refine (wf.path_decreasing n).imp_of_mem fun {a b} ha hb hab => ?_
  have hba : b ∈ t.path a :=
    (wf.comparable hb ha).resolve_right fun h => absurd (wf.path_le h) (not_le.mpr hab)
  exact (Tree.mem_path.mp hba).resolve_left (ne_of_lt hab)

theorem candidatesFrom_walk (wf : t.WellFormed) (leaf : NodeIndex) :
    Walk t e eventless leaf (candidatesFrom t e eventless leaf) where
  mem {u} := by
    constructor
    case mp =>
      intro h
      obtain ⟨hu, hpath⟩ := mem_candidates wf h
      obtain ⟨hmem, hlistens⟩ := mem_candidates_iff.mp hu
      exact ⟨hmem, hpath, hlistens⟩
    case mpr =>
      rintro ⟨hmem, hpath, hlistens⟩
      exact List.mem_flatMap.mpr ⟨_, hpath, mem_candidates_iff.mpr ⟨hmem, hlistens⟩⟩
  ordered := by
    refine List.pairwise_flatMap.mpr ⟨fun n _ => candidates_ordered wf n, ?_⟩
    refine (path_ordered wf leaf).imp fun {a b} hab u hu v hv => .inl ?_
    rw [wf.source u (candidates_subset _ hu), wf.source v (candidates_subset _ hv)]
    exact hab

theorem Sooner.asymm (wf : t.WellFormed) (h : Sooner t e u v) : ¬ Sooner t e v u := by
  rintro (hvu | ⟨hs, hvu⟩)
  case inl =>
    rcases h with huv | ⟨hs, _⟩
    · exact absurd (wf.ancestors_lt huv) (wf.ancestors_lt hvu).asymm
    · exact wf.ancestors_ne hvu hs
  case inr =>
    rcases h with huv | ⟨_, huv⟩
    · exact wf.ancestors_ne huv hs
    · rcases huv with ⟨hu, hv⟩ | ⟨he, hlt⟩ <;> rcases hvu with ⟨hv', hu'⟩ | ⟨he', hlt'⟩
      all_goals first | omega | simp_all

theorem Walk.unique (wf : t.WellFormed) {vs : List Transition} (hu : Walk t e eventless leaf us)
    (hv : Walk t e eventless leaf vs) : us = vs := by
  have hnodup {ws : List Transition} (h : Walk t e eventless leaf ws) : ws.Nodup :=
    h.ordered.imp fun {u v} huv => by
      rintro rfl
      exact huv.asymm wf huv
  refine List.Perm.eq_of_pairwise (fun u v _ _ huv hvu => absurd hvu (huv.asymm wf)) hu.ordered
    hv.ordered ?_
  exact (List.perm_ext_iff_of_nodup (hnodup hu) (hnodup hv)).mpr fun u => hu.mem.trans hv.mem.symm

section Guards

variable (r : Registry C S) (c : Configuration) (x : C) (e : Event)

-- A guard that fails does not pass.
def allows (u : Transition) : Bool :=
  match u.guard with
  | none => true
  | some (.active n) => c.contains n
  | some (.named name) =>
    match (check r x e name).result with
    | .ok passed => passed
    | .error _ => false

-- Of all guards only the named ones are evaluated.
def checkOf? (u : Transition) : Option GuardCheck :=
  match u.guard with
  | some (.named name) => some (check r x e name)
  | _ => none

-- The candidates that are looked at for `leaf`: up to the first whose guard passes.
def tried (t : Tree) (eventless : Bool) (leaf : NodeIndex) : List Transition :=
  upTo (allows r c x e) (candidatesFrom t e eventless leaf)

def firstPassing (t : Tree) (eventless : Bool) (leaf : NodeIndex) : Option Transition :=
  (candidatesFrom t e eventless leaf).find? (allows r c x e)

-- What looking for transitions comes to as long as failures do not end it.
def sweep (t : Tree) (eventless : Bool) : Evaluation (List Transition) where
  checks := ((c.leaves t).flatMap (tried r c x e t eventless)).filterMap (checkOf? r x e)
  result := .ok ((c.leaves t).filterMap (firstPassing r c x e t eventless)).eraseDups

end Guards

theorem passes_lenient (u : Transition) : passes r .treatAsFalse c x e u =
    { checks := (checkOf? r x e u).toList, result := .ok (allows r c x e u) } := by
  unfold passes checkOf? allows
  cases u.guard with
  | none => rfl
  | some guard =>
    cases guard with
    | active n => rfl
    | named name => cases h : (check r x e name).result <;> simp [evaluate, h]

theorem firstEnabled_lenient (us : List Transition) : firstEnabled r .treatAsFalse c x e us =
    { checks := (upTo (allows r c x e) us).filterMap (checkOf? r x e)
      result := .ok (us.find? (allows r c x e)) } := by
  induction us with
  | nil => rfl
  | cons u us ih =>
    have hcons : (upTo (allows r c x e) (u :: us)).filterMap (checkOf? r x e) =
        (checkOf? r x e u).toList ++ (if allows r c x e u then []
          else upTo (allows r c x e) us).filterMap (checkOf? r x e) := by
      rw [upTo_cons, List.filterMap_cons]
      cases checkOf? r x e u <;> rfl
    rw [firstEnabled, passes_lenient, Evaluation.bind_of_ok rfl, hcons]
    cases hu : allows r c x e u with
    | true =>
      rw [List.find?_cons_of_pos hu]
      rfl
    | false =>
      rw [List.find?_cons_of_neg (by simp [hu])]
      simp only [Bool.false_eq_true, ↓reduceIte, ih]

theorem addNew_eraseDups (wf : t.WellFormed) {o : Option Transition}
    (hus : ∀ u ∈ us, u ∈ (t.node u.source).transitions)
    (ho : ∀ u, o = some u → u ∈ (t.node u.source).transitions) :
    addNew us.eraseDups o = (us ++ o.toList).eraseDups := by
  cases o with
  | none => simp [addNew]
  | some u =>
    have hany : us.eraseDups.any (·.isSame u) = true ↔ u ∈ us := by
      rw [List.any_eq_true]
      constructor
      · rintro ⟨v, hv, hvu⟩
        have hv := List.mem_eraseDups.mp hv
        exact eq_of_isSame wf (hus v hv) (ho u rfl) hvu ▸ hv
      · exact fun hu => ⟨u, List.mem_eraseDups.mpr hu, by simp [Transition.isSame]⟩
    rw [addNew, Option.toList_some, List.eraseDups_append]
    by_cases hu : u ∈ us
    · rw [if_pos (hany.mpr hu)]
      simp [List.removeAll, hu]
    · rw [if_neg (mt hany.mp hu)]
      simp [List.removeAll, hu, List.eraseDups_cons]

theorem firstPassing_mem (wf : t.WellFormed) (h : firstPassing r c x e t eventless leaf = some u) :
    u ∈ (t.node u.source).transitions :=
  ((candidatesFrom_walk wf leaf).mem.mp (List.mem_of_find?_eq_some h)).left

-- What one leaf adds to what the others have found.
theorem find_lenient (wf : t.WellFormed) (leaf : NodeIndex)
    (hus : ∀ u ∈ us, u ∈ (t.node u.source).transitions) :
    (do pure (addNew us.eraseDups (← firstEnabled r .treatAsFalse c x e
      (candidatesFrom t e eventless leaf))) : Evaluation (List Transition)) =
    { checks := (tried r c x e t eventless leaf).filterMap (checkOf? r x e)
      result := .ok (us ++ (firstPassing r c x e t eventless leaf).toList).eraseDups } := by
  rw [firstEnabled_lenient, Evaluation.bind_of_ok rfl]
  refine congrArg₂ Evaluation.mk (List.append_nil _) (congrArg Except.ok ?_)
  exact addNew_eraseDups wf hus fun u hu => firstPassing_mem wf hu

-- By induction on the leaves that are left.
theorem foldlM_lenient (wf : t.WellFormed) (leaves : List NodeIndex)
    (hus : ∀ u ∈ us, u ∈ (t.node u.source).transitions) :
    leaves.foldlM (fun found leaf => do
      let u? ← firstEnabled r .treatAsFalse c x e (candidatesFrom t e eventless leaf)
      pure (addNew found u?)) us.eraseDups =
    ({ checks := (leaves.flatMap (tried r c x e t eventless)).filterMap (checkOf? r x e)
       result := .ok (us ++ leaves.filterMap (firstPassing r c x e t eventless)).eraseDups } :
      Evaluation (List Transition)) := by
  induction leaves generalizing us with
  | nil => simp; rfl
  | cons leaf leaves ih =>
    have hus' : ∀ u ∈ us ++ (firstPassing r c x e t eventless leaf).toList,
        u ∈ (t.node u.source).transitions := by
      intro u hu
      rcases List.mem_append.mp hu with hu | hu
      · exact hus u hu
      · exact firstPassing_mem wf (Option.mem_toList.mp hu)
    have hfound : (leaf :: leaves).filterMap (firstPassing r c x e t eventless) =
        (firstPassing r c x e t eventless leaf).toList ++
          leaves.filterMap (firstPassing r c x e t eventless) := by
      rw [List.filterMap_cons]
      cases firstPassing r c x e t eventless leaf <;> rfl
    rw [List.foldlM_cons, find_lenient wf leaf hus, Evaluation.bind_of_ok rfl, ih hus', hfound,
      List.flatMap_cons, List.filterMap_append, List.append_assoc]

theorem enabled_lenient (wf : t.WellFormed) :
    enabled t r .treatAsFalse c x e eventless = sweep r c x e t eventless :=
  foldlM_lenient wf _ (List.forall_mem_nil _)

theorem evaluate_under (name : String) :
    evaluate r policy x e name = (evaluate r .treatAsFalse x e name).under policy := by
  cases policy with
  | treatAsFalse => rfl
  | propagate =>
    cases h : (check r x e name).result <;>
      simp [evaluate, h, Evaluation.under, Evaluation.cut, Evaluation.guardErrors,
        GuardCheck.error?, upTo_cons]

theorem passes_under (u : Transition) :
    passes r policy c x e u = (passes r .treatAsFalse c x e u).under policy := by
  unfold passes
  split
  · exact (Evaluation.under_pure policy).symm
  · exact (Evaluation.under_pure policy).symm
  · exact evaluate_under _

theorem firstEnabled_under (us : List Transition) :
    firstEnabled r policy c x e us = (firstEnabled r .treatAsFalse c x e us).under policy := by
  induction us with
  | nil => exact (Evaluation.under_pure policy).symm
  | cons u us ih =>
    have hu : (passes r .treatAsFalse c x e u).result = .ok (allows r c x e u) := by
      rw [passes_lenient]
    rw [firstEnabled, firstEnabled, Evaluation.under_bind policy hu, ← passes_under]
    refine congrArg _ (funext fun b => ?_)
    cases b with
    | true => exact (Evaluation.under_pure policy).symm
    | false => exact ih

theorem foldlM_under {α β : Type} {f g : α → β → Evaluation α} (policy : GuardPolicy)
    (hf : ∀ a b, ∃ a', (f a b).result = .ok a') (hg : ∀ a b, g a b = (f a b).under policy)
    (l : List β) (a : α) : l.foldlM g a = (l.foldlM f a).under policy := by
  induction l generalizing a with
  | nil => exact (Evaluation.under_pure policy).symm
  | cons b l ih =>
    obtain ⟨a', ha'⟩ := hf a b
    rw [List.foldlM_cons, List.foldlM_cons, Evaluation.under_bind policy ha', hg]
    exact congrArg _ (funext ih)

theorem enabled_under : enabled t r policy c x e eventless =
    (enabled t r .treatAsFalse c x e eventless).under policy := by
  refine foldlM_under policy (fun found leaf => ?_) (fun found leaf => ?_) _ _
  · rw [firstEnabled_lenient, Evaluation.bind_of_ok rfl]
    exact ⟨_, rfl⟩
  · rw [Evaluation.under_bind policy (by rw [firstEnabled_lenient]), ← firstEnabled_under]
    exact congrArg _ (funext fun o => (Evaluation.under_pure policy).symm)

theorem select_checks : (select t r policy c x e eventless).checks =
    (enabled t r policy c x e eventless).checks := by
  cases h : (enabled t r policy c x e eventless).result with
  | ok us =>
    rw [select, Evaluation.bind_of_ok h]
    exact List.append_nil _
  | error err =>
    change (Evaluation.bind _ _).checks = _
    rw [Evaluation.bind, h]

-- A guard is only evaluated for a leaf below its node, and only after all that are tried sooner for
-- this leaf have not passed.
theorem exists_of_mem_sweep (wf : t.WellFormed) {g : GuardCheck}
    (h : g ∈ (sweep r c x e t eventless).checks) : ∃ leaf ∈ c.leaves t, ∃ u,
      (u ∈ (t.node u.source).transitions ∧ u.source ∈ t.path leaf ∧ u.listens e eventless = true) ∧
      checkOf? r x e u = some g ∧
      ∀ v ∈ candidatesFrom t e eventless leaf, Sooner t e v u → allows r c x e v = false := by
  obtain ⟨u, hu, hg⟩ := List.mem_filterMap.mp h
  obtain ⟨leaf, hleaf, hu⟩ := List.mem_flatMap.mp hu
  have hwalk : Walk t e eventless leaf (candidatesFrom t e eventless leaf) :=
    candidatesFrom_walk wf leaf
  refine ⟨leaf, hleaf, u, hwalk.mem.mp (upTo_begins.subset hu), hg, fun v hv hvu => ?_⟩
  obtain ⟨before, after, hsplit, hbefore⟩ := exists_split_of_mem_upTo hu
  -- What is tried sooner than `u` does not come after it.
  have hord := hwalk.ordered
  rw [hsplit, List.pairwise_append, List.pairwise_cons] at hord
  rw [hsplit] at hv
  rcases List.mem_append.mp hv with hv | hv
  case inl => exact hbefore v hv
  case inr =>
    rcases List.mem_cons.mp hv with rfl | hv
    case inl => exact absurd hvu (hvu.asymm wf)
    case inr => exact absurd hvu ((hord.right.left.left v hv).asymm wf)

-- For each active leaf in document order, the guards of the transitions that listen on the way to
-- the root, up to the first that passes; these are enabled, each once. A failure that counts cuts
-- the whole sequence.
theorem select_evaluates {machineId : String} {root : Definition.State}
    (hb : root.build machineId = .ok t) (r : Registry C S) (policy : GuardPolicy)
    (c : Configuration) (x : C) (e : Event) (eventless : Bool) :
    (c.leaves t).Pairwise (· < ·) ∧
    (∀ leaf, leaf ∈ c.leaves t ↔ leaf ∈ c ∧ (t.node leaf).isLeaf = true) ∧
    (∀ leaf us, Walk t e eventless leaf us ↔ us = candidatesFrom t e eventless leaf) ∧
    enabled t r policy c x e eventless = (sweep r c x e t eventless).under policy ∧
    (select t r policy c x e eventless).checks = (enabled t r policy c x e eventless).checks ∧
    ∀ g ∈ (select t r policy c x e eventless).checks, ∃ leaf ∈ c.leaves t, ∃ u,
      (u ∈ (t.node u.source).transitions ∧ u.source ∈ t.path leaf ∧ u.listens e eventless = true) ∧
      checkOf? r x e u = some g ∧
      ∀ v ∈ candidatesFrom t e eventless leaf, Sooner t e v u → allows r c x e v = false := by
  have wf := Definition.State.build_wellFormed hb
  have henabled : enabled t r policy c x e eventless =
      (sweep r c x e t eventless).under policy := by
    rw [enabled_under, enabled_lenient wf]
  refine ⟨leaves_increasing t c, fun leaf => ?_, fun leaf us => ?_, henabled, select_checks,
    fun g hg => ?_⟩
  · rw [Configuration.leaves, List.mem_filter]
    rfl
  · constructor
    · exact fun h => h.unique wf (candidatesFrom_walk wf leaf)
    · rintro rfl
      exact candidatesFrom_walk wf leaf
  · rw [select_checks, henabled] at hg
    exact exists_of_mem_sweep wf ((Evaluation.under_checks_begin policy).subset hg)

-- Two lamps. The left one has a loose contact, and each event is meant for both.
def lamps : Definition.State :=
  .mk { key := "m", initial := some "lit" } [
    .mk {
      key := "lit"
      shape := .parallel
      transitions := [(.event "OFF", { targets := ["dark"], guard := some (.named "armed") })] } [
      .mk {
        key := "left"
        transitions := [
          (.event "*", { targets := ["#m.dark"], guard := some (.named "loose") }),
          (.event "OFF", { targets := ["#m.dark"], guard := some (.named "tight") })] } [],
      .mk { key := "right" } []],
    .mk { key := "dark" } []]

def lampsTree : Tree := ((Definition.Layout.ofState "m" lamps).lower "m").value

def lampsRegistry : Registry Unit Unit where
  guards := .ofList [("armed", fun _ _ => .ok true), ("loose", fun _ _ => .error ⟨"no contact"⟩),
    ("tight", fun _ _ => .ok false)]

-- The guard that both leaves come to is evaluated for each of them, unless the one that fails has
-- cut the sequence before.
theorem select_evaluates_lamps :
    lamps.build "m" = .ok lampsTree ∧
    (select lampsTree lampsRegistry .treatAsFalse (.ofList [0, 1, 2, 3]) () ⟨"OFF", .null⟩
      false).checks.map (·.guard) = ["tight", "loose", "armed", "armed"] ∧
    (enabled lampsTree lampsRegistry .treatAsFalse (.ofList [0, 1, 2, 3]) () ⟨"OFF", .null⟩
      false).result.toOption = some (lampsTree.node 1).transitions ∧
    (select lampsTree lampsRegistry .propagate (.ofList [0, 1, 2, 3]) () ⟨"OFF", .null⟩
      false).checks.map (·.guard) = ["tight", "loose"] := by
  have hb : lamps.build "m" = .ok lampsTree :=
    Definition.State.build_of_problems (by decide +kernel)
  obtain ⟨_, _, _, hlenient, hchecks, _⟩ := select_evaluates hb lampsRegistry .treatAsFalse
    (.ofList [0, 1, 2, 3]) () ⟨"OFF", .null⟩ false
  obtain ⟨_, _, _, hstrict, hchecks', _⟩ := select_evaluates hb lampsRegistry .propagate
    (.ofList [0, 1, 2, 3]) () ⟨"OFF", .null⟩ false
  rw [hchecks, hlenient, hchecks', hstrict]
  exact ⟨hb, by decide +kernel, by decide +kernel, by decide +kernel⟩

end Selection

end Statechart
