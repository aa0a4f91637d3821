import Statechart.Checkpoint.Basic
import Statechart.Proofs.Lowering
import Statechart.Proofs.Play

-- Which checkpoints are accepted, and what comes back from them.

namespace Statechart

-- Reading a list succeeds if every member can be read.
theorem mapM_eq_ok {ε α β : Type} {f : α → Except ε β} {l : List α} {bs : List β} :
    l.mapM f = .ok bs ↔ l.Forall₂ (fun a b => f a = .ok b) bs := by
  induction l generalizing bs with
  | nil => simp [pure, Except.pure, eq_comm]
  | cons a rest ih =>
    rw [List.mapM_cons, Microstep.bind_eq_ok, List.forall₂_cons_left_iff]
    constructor
    case mp =>
      intro h
      obtain ⟨b, hb, h⟩ := h
      obtain ⟨cs, hcs, h⟩ := Microstep.bind_eq_ok.mp h
      cases h
      exact ⟨b, cs, hb, ih.mp hcs, rfl⟩
    case mpr =>
      rintro ⟨b, cs, hb, hcs, rfl⟩
      exact ⟨b, hb, Microstep.bind_eq_ok.mpr ⟨cs, ih.mpr hcs, rfl⟩⟩

theorem exists_forall₂ {α β : Type} {R : α → β → Prop} {l : List α} (h : ∀ a ∈ l, ∃ b, R a b) :
    ∃ bs, l.Forall₂ R bs := by
  induction l with
  | nil => exact ⟨[], .nil⟩
  | cons a rest ih =>
    obtain ⟨b, hb⟩ := h a List.mem_cons_self
    obtain ⟨bs, hbs⟩ := ih fun a ha => h a (List.mem_cons_of_mem _ ha)
    exact ⟨b :: bs, .cons hb hbs⟩

theorem pairwise_of_forall₂ {α β : Type} {R : α → β → Prop} {P : α → α → Prop} {Q : β → β → Prop}
    {as : List α} {bs : List β} (h : as.Forall₂ R bs) (ha : as.Pairwise P)
    (hPQ : ∀ {a a' b b'}, P a a' → R a b → R a' b' → Q b b') : bs.Pairwise Q := by
  induction h with
  | nil => exact .nil
  | cons hr hrest ih =>
    obtain ⟨hp, ha⟩ := List.pairwise_cons.mp ha
    refine .cons (fun b hb => ?_) (ih ha)
    obtain ⟨a, ha, hab⟩ := Definition.exists_of_forall₂ hrest hb
    exact hPQ (hp a ha) hr hab

namespace SortedMap

section Distinct

variable {κ β : Type} [LT κ] [LE κ] [Std.LawfulOrderLT κ]

theorem entries_distinct (m : SortedMap κ β) : m.entries.Pairwise fun a b => a.1 ≠ b.1 :=
  m.increasing.imp fun {a b} hlt (he : a.1 = b.1) => Std.lt_irrefl (he ▸ hlt)

-- Entries for different keys do not replace each other.
theorem find?_ofList [DecidableLT κ] [DecidableEq κ] [Std.IsLinearOrder κ] {l : List (κ × β)}
    (h : l.Pairwise fun a b => a.1 ≠ b.1) {k : κ} {v : β} :
    (ofList l).find? k = some v ↔ (k, v) ∈ l := by
  have hfold (m : SortedMap κ β) : (l.foldl (fun m e => m.insert e.1 e.2) m).find? k = some v ↔
      (k, v) ∈ l ∨ m.find? k = some v ∧ ∀ e ∈ l, e.1 ≠ k := by
    induction l generalizing m with
    | nil => simp
    | cons e rest ih =>
      obtain ⟨he, hr⟩ := List.pairwise_cons.mp h
      rw [List.foldl_cons, ih hr, find?_insert, List.mem_cons, List.forall_mem_cons]
      obtain ⟨j, w⟩ := e
      by_cases hk : j = k
      case pos =>
        subst hk
        have hv : (j, v) ∉ rest := fun hv => he _ hv rfl
        have hrest : ∀ e ∈ rest, e.1 ≠ j := fun e hm hj => he e hm hj.symm
        simp only [if_true, Option.some.injEq, hv, false_or, Prod.mk.injEq, true_and, or_false,
          ne_eq, not_true_eq_false, false_and, and_false]
        exact ⟨fun hw => hw.left.symm, fun hw => ⟨hw.symm, hrest⟩⟩
      case neg => simp [hk, Ne.symm hk]
  rw [ofList, hfold]
  simp [find?, EmptyCollection.emptyCollection, empty]

end Distinct

end SortedMap

namespace Tree

variable {t : Tree} {n : NodeIndex} {ns : List NodeIndex} {ids : List String} {id : String}

-- Every node is found by its id, and no other node has it.
def Identified (t : Tree) : Prop :=
  ∀ id n, t.indexOf? id = some n ↔ n < t.size ∧ (t.node n).id = id

theorem Identified.indexOf?_id (hi : t.Identified) (hn : n < t.size) :
    t.indexOf? (t.node n).id = some n :=
  (hi _ _).mpr ⟨hn, rfl⟩

theorem elim_eq_ok {x : Option NodeIndex} {e : UnknownNode} :
    x.elim (.error e) .ok = (.ok n : Except UnknownNode NodeIndex) ↔ x = some n := by
  cases x <;> simp

theorem indicesOf_eq_ok :
    t.indicesOf ids = .ok ns ↔ ids.Forall₂ (fun id n => t.indexOf? id = some n) ns := by
  simp only [indicesOf, mapM_eq_ok, elim_eq_ok]

end Tree

namespace Checkpoint

variable {C : Type} {t : Tree} {ids : List String} {id : String} {s s' : NodeSet}
  {n k : NodeIndex} {h h' : History} {e : String × List String}

-- All the ids belong to nodes, and `s` consists of these nodes.
structure Lists (t : Tree) (ids : List String) (s : NodeSet) : Prop where
  known : ∀ id ∈ ids, ∃ n < t.size, (t.node n).id = id
  mem : ∀ n, n ∈ s ↔ n < t.size ∧ (t.node n).id ∈ ids

theorem Lists.unique (h : Lists t ids s) (h' : Lists t ids s') : s = s' :=
  SortedSet.ext fun n => (h.mem n).trans (h'.mem n).symm

-- A set of nodes is listed by their ids.
theorem lists_ids (hi : t.Identified) (hs : ∀ n ∈ s, n < t.size) : Lists t (t.ids s.toList) s where
  known := by
    intro id hid
    obtain ⟨n, hn, rfl⟩ := List.mem_map.mp hid
    exact ⟨n, hs n hn, rfl⟩
  mem := by
    intro n
    rw [Tree.ids, List.mem_map]
    constructor
    case mp => exact fun hn => ⟨hs n hn, n, hn, rfl⟩
    case mpr =>
      rintro ⟨hn, m, hm, he⟩
      have hm' := hi.indexOf?_id (hs m hm)
      rw [he, hi.indexOf?_id hn] at hm'
      cases hm'
      exact hm

theorem lists_of_indicesOf {ns : List NodeIndex} (hi : t.Identified)
    (h : t.indicesOf ids = .ok ns) : Lists t ids (.ofList ns) where
  known := by
    intro id hid
    obtain ⟨n, _, hn⟩ := Definition.exists_of_forall₂ (Tree.indicesOf_eq_ok.mp h).flip hid
    exact ⟨n, (hi _ _).mp hn⟩
  mem := by
    intro n
    rw [SortedSet.mem_ofList]
    constructor
    case mp =>
      intro hn
      obtain ⟨id, hid, hn⟩ := Definition.exists_of_forall₂ (Tree.indicesOf_eq_ok.mp h) hn
      obtain ⟨hlt, rfl⟩ := (hi _ _).mp hn
      exact ⟨hlt, hid⟩
    case mpr =>
      rintro ⟨hn, hid⟩
      obtain ⟨m, hm, he⟩ := Definition.exists_of_forall₂ (Tree.indicesOf_eq_ok.mp h).flip hid
      rw [hi.indexOf?_id hn] at he
      cases he
      exact hm

theorem exists_indicesOf (hi : t.Identified) (h : ∀ id ∈ ids, ∃ n < t.size, (t.node n).id = id) :
    ∃ ns, t.indicesOf ids = .ok ns := by
  simp only [Tree.indicesOf_eq_ok]
  refine exists_forall₂ fun id hid => ?_
  obtain ⟨n, hn⟩ := h id hid
  exact ⟨n, (hi _ _).mpr hn⟩

theorem nodes_eq_ok (hi : t.Identified) : nodes t ids = .ok s ↔ Lists t ids s := by
  constructor
  case mp =>
    intro h
    cases hns : t.indicesOf ids with
    | error => simp [nodes, hns] at h
    | ok ns =>
      rw [nodes, hns] at h
      cases h
      exact lists_of_indicesOf hi hns
  case mpr =>
    intro h
    obtain ⟨ns, hns⟩ := exists_indicesOf hi h.known
    rw [nodes, hns, h.unique (lists_of_indicesOf hi hns)]

theorem historyNode_eq_ok (hi : t.Identified) : historyNode t id = .ok k ↔
    k < t.size ∧ (t.node k).id = id ∧ (t.node k).isHistory = true := by
  rw [← and_assoc, ← hi, historyNode]
  cases hk : t.indexOf? id with
  | none => simp
  | some n =>
    by_cases hh : (t.node n).isHistory = true
    case pos =>
      simp only [hh, if_true, Except.ok.injEq, Option.some.injEq]
      exact ⟨fun he => ⟨he, he ▸ hh⟩, And.left⟩
    case neg =>
      simp only [hh, Bool.false_eq_true, if_false, reduceCtorEq, Option.some.injEq, false_iff]
      rintro ⟨rfl, hk⟩
      exact hh hk

-- What is read from an entry of the written history.
def Reads (t : Tree) (e : String × List String) (r : NodeIndex × NodeSet) : Prop :=
  (r.1 < t.size ∧ (t.node r.1).id = e.1 ∧ (t.node r.1).isHistory = true) ∧ Lists t e.2 r.2

theorem Reads.unique {r r' : NodeIndex × NodeSet} (hi : t.Identified) (hr : Reads t e r)
    (hr' : Reads t e r') : r = r' := by
  obtain ⟨⟨hk, he, _⟩, hs⟩ := hr
  obtain ⟨⟨hk', he', _⟩, hs'⟩ := hr'
  have hkk := hi.indexOf?_id hk
  rw [he, ← he', hi.indexOf?_id hk'] at hkk
  exact Prod.ext (Option.some.inj hkk).symm (hs.unique hs')

theorem addRecord_eq_ok (hi : t.Identified) : addRecord t h e = .ok h' ↔
    ∃ r, Reads t e r ∧ h' = h.insert r.1 r.2 := by
  rw [addRecord, Microstep.bind_eq_ok]
  constructor
  case mp =>
    intro hr
    obtain ⟨k, hk, hr⟩ := hr
    obtain ⟨s, hs, hr⟩ := Microstep.bind_eq_ok.mp hr
    cases hr
    exact ⟨(k, s), ⟨(historyNode_eq_ok hi).mp hk, (nodes_eq_ok hi).mp hs⟩, rfl⟩
  case mpr =>
    rintro ⟨⟨k, s⟩, ⟨hk, hs⟩, rfl⟩
    exact ⟨k, (historyNode_eq_ok hi).mpr hk,
      Microstep.bind_eq_ok.mpr ⟨s, (nodes_eq_ok hi).mpr hs, rfl⟩⟩

theorem addRecords_eq_ok (hi : t.Identified) {es : List (String × List String)} :
    es.foldlM (addRecord t) h = .ok h' ↔
      ∃ rs, es.Forall₂ (Reads t) rs ∧ h' = rs.foldl (fun h r => h.insert r.1 r.2) h := by
  induction es generalizing h with
  | nil => simp [pure, Except.pure, eq_comm]
  | cons e rest ih =>
    rw [List.foldlM_cons, Microstep.bind_eq_ok]
    constructor
    case mp =>
      intro hr
      obtain ⟨h₁, he, hr⟩ := hr
      obtain ⟨r, hr₁, rfl⟩ := (addRecord_eq_ok hi).mp he
      obtain ⟨rs, hrs, rfl⟩ := ih.mp hr
      exact ⟨r :: rs, .cons hr₁ hrs, rfl⟩
    case mpr =>
      rintro ⟨rs, hrs, rfl⟩
      cases hrs with
      | @cons _ r _ rs hr hrs =>
        exact ⟨h.insert r.1 r.2, (addRecord_eq_ok hi).mpr ⟨r, hr, rfl⟩, ih.mpr ⟨rs, hrs, rfl⟩⟩

-- Every written entry is read, and `h` records just what they say.
structure Records (t : Tree) (written : SortedMap String (List String)) (h : History) : Prop where
  known : ∀ e ∈ written.entries, ∃ r, Reads t e r
  find : ∀ k s, h.find? k = some s ↔ ∃ e ∈ written.entries, Reads t e (k, s)

theorem Records.unique {written : SortedMap String (List String)} (hr : Records t written h)
    (hr' : Records t written h') : h = h' :=
  SortedMap.ext_find? fun k => Option.ext fun s => (hr.find k s).trans (hr'.find k s).symm

theorem records_ofList (hi : t.Identified) {written : SortedMap String (List String)}
    {rs : List (NodeIndex × NodeSet)} (hrs : written.entries.Forall₂ (Reads t) rs) :
    Records t written (.ofList rs) where
  known := by
    intro e he
    obtain ⟨r, _, hr⟩ := Definition.exists_of_forall₂ hrs.flip he
    exact ⟨r, hr⟩
  find := by
    have hd : rs.Pairwise fun a b => a.1 ≠ b.1 := by
      refine pairwise_of_forall₂ hrs written.entries_distinct fun he hr hr' hk => he ?_
      rw [← hr.left.right.left, ← hr'.left.right.left, hk]
    intro k s
    rw [SortedMap.find?_ofList hd]
    constructor
    case mp => exact Definition.exists_of_forall₂ hrs
    case mpr =>
      rintro ⟨e, he, hr⟩
      obtain ⟨r, hmem, hr'⟩ := Definition.exists_of_forall₂ hrs.flip he
      rwa [hr.unique hi hr']

theorem history_eq_ok (hi : t.Identified) {written : SortedMap String (List String)} :
    written.entries.foldlM (addRecord t) ∅ = .ok h ↔ Records t written h := by
  rw [addRecords_eq_ok hi]
  constructor
  case mp =>
    rintro ⟨rs, hrs, rfl⟩
    exact records_ofList hi hrs
  case mpr =>
    intro hr
    obtain ⟨rs, hrs⟩ := exists_forall₂ hr.known
    exact ⟨rs, hrs, hr.unique (records_ofList hi hrs)⟩

-- What a checkpoint has to be like for the tree, and the state that it then stands for.
structure Accepted (t : Tree) (c : Checkpoint C) (s : MachineState C) : Prop where
  version : c.version = currentVersion
  machineId : c.machineId = t.machineId
  configuration : Lists t c.configuration s.configuration
  legal : s.configuration.isLegal t = true
  history : Records t c.history s.history
  context : s.context = c.context
  done : s.done = c.done
  doneData : s.doneData = none

theorem state_eq_ok {c : Checkpoint C} {s : MachineState C} (hi : t.Identified) :
    c.state t = .ok s ↔ c.Accepted t s := by
  constructor
  case mp =>
    intro h
    obtain ⟨_, hv, h⟩ := Microstep.bind_eq_ok.mp h
    rw [checkVersion] at hv
    split at hv
    case isFalse => contradiction
    case isTrue hversion =>
      split at h
      case isTrue => contradiction
      case isFalse hid =>
        obtain ⟨configuration, hc, h⟩ := Microstep.bind_eq_ok.mp h
        split at h
        case isTrue => contradiction
        case isFalse hl =>
          obtain ⟨history, hh, h⟩ := Microstep.bind_eq_ok.mp h
          cases h
          exact {
            version := hversion
            machineId := not_not.mp hid
            configuration := (nodes_eq_ok hi).mp hc
            legal := by simpa using hl
            history := (history_eq_ok hi).mp hh
            context := rfl
            done := rfl
            doneData := rfl }
  case mpr =>
    intro h
    refine Microstep.bind_eq_ok.mpr ⟨c, by simp [checkVersion, h.version], ?_⟩
    rw [if_neg (not_not.mpr h.machineId)]
    refine Microstep.bind_eq_ok.mpr ⟨_, (nodes_eq_ok hi).mpr h.configuration, ?_⟩
    rw [if_neg (by simp [h.legal])]
    refine Microstep.bind_eq_ok.mpr ⟨_, (history_eq_ok hi).mpr h.history, ?_⟩
    rw [← h.context, ← h.done]
    cases s
    cases h.doneData
    rfl

end Checkpoint

namespace Tree

variable {t : Tree} {K : Set NodeIndex} {h : History} {seeds : List NodeIndex} {a n k x : NodeIndex}

theorem lt_size_of_ancestor (h : a ∈ t.ancestors n) : n < t.size := by
  by_contra hn
  simp [ancestors, node_of_size_le (not_lt.mp hn)] at h

variable (wf : t.WellFormed)
include wf

-- What a node of the tree stands for belongs to the tree as well, if what is recorded does.
theorem standsFor_lt (hr : ∀ r, (t.node x).isHistory = true → h.find? x = some r →
      ∀ n ∈ r, n < t.size) (hx : x < t.size) (hs : t.StandsFor h x k) : k < t.size := by
  cases hs with
  | itself => exact hx
  | recorded hk hf hn => exact hr _ hk hf k hn
  | default hk _ hd =>
    obtain ⟨p, hp⟩ := wf.exists_parent_of_history hk
    exact lt_size_of_ancestor (wf.defaults hk (wf.parent_of_child hp) k hd).left
  | initial _ _ _ _ hi => exact (wf.child (mem_regions.mp (wf.initial_mem_regions hi)).left).left
  | parent _ _ _ hp => exact lt_size_of_children (wf.parent_eq_some.mp hp)

theorem entered_lt (hK : ∀ k ∈ K, k < t.size) (he : t.Entered K n) : n < t.size := by
  cases (wf.entered_origin he)
  case inl h =>
    obtain ⟨k, hk, hn⟩ := h
    exact (wf.path_le hn).trans_lt (hK k hk)
  case inr h =>
    obtain ⟨p, _, hn⟩ := h
    exact (wf.child (mem_regions.mp hn).left).left

theorem resolve_lt (hh : h.Within t) (hs : ∀ x ∈ seeds, x < t.size) :
    ∀ n ∈ t.resolve h seeds, n < t.size := by
  intro n hn
  refine entered_lt wf (fun k hk => ?_) (wf.mem_resolve.mp hn)
  obtain ⟨x, hx, hs'⟩ := hk
  refine standsFor_lt wf (fun r hk hf n hn => ?_) (hs x hx) hs'
  obtain ⟨p, hp⟩ := wf.exists_parent_of_history hk
  exact lt_size_of_ancestor (hh x p _ hk (wf.parent_of_child hp) hf n hn).left

end Tree

-- A state speaks of the nodes of the tree only, it records something for history nodes only, and
-- it has ended with something only if it is done.
structure MachineState.Grounded {C : Type} (t : Tree) (s : MachineState C) : Prop where
  active : ∀ n ∈ s.configuration, n < t.size
  recorded : ∀ k r, s.history.find? k = some r → (t.node k).isHistory = true
  ended : s.doneData ≠ none → s.done = true

namespace Macrostep

variable {C S σ : Type} {t : Tree} {r : Registry C S} {config : Config} {commit : Commit σ C}
  {p : Progress σ C} {q q' : Progress σ C} {us : List Transition} {s : MachineState C}
  {m : Microstep C} {e : Event} {eventless : Bool} {trigger : Trigger} {shell : σ}

theorem grounded_after (hs : s.Grounded t) (hc : ∀ n ∈ m.configuration, n < t.size)
    (hh : ∀ k r, m.history.find? k = some r → (t.node k).isHistory = true) :
    (s.after m).Grounded t where
  active := hc
  recorded := hh
  ended := by
    simp only [MachineState.after]
    cases m.done
    case false => simpa using hs.ended
    case true => simp

theorem initial_grounded (wf : t.WellFormed) (hs : s.Steady t) (hg : s.Grounded t)
    (hm : Microstep.initial t r e s.context s.history = .ok m) : (s.after m).Grounded t := by
  obtain ⟨_, hc, hh⟩ := Microstep.enter_eq_ok hm
  refine grounded_after hg ?_ ?_
  case refine_1 =>
    rw [hc]
    refine Tree.resolve_lt wf hs.within fun x hx => ?_
    rw [List.mem_singleton.mp hx]
    exact wf.size_pos
  case refine_2 =>
    rw [hh]
    exact hg.recorded

theorem takes_grounded (wf : t.WellFormed) (hs : q.state.Sound t) (hg : q.state.Grounded t)
    (hus : (selection t r config q.state e eventless).result = .ok us)
    (ht : Takes t r commit q us q') : q'.state.Grounded t := by
  cases ht with
  | @intro m _ ha _ =>
    have hl := (Configuration.isLegal_iff wf).mp hs.legal
    have hsel := select_selected wf hl hus
    obtain ⟨hc, hh, _⟩ := Microstep.take_eq_ok ha
    refine grounded_after hg ?_ ?_
    case refine_1 =>
      have hrest n (hn : n ∈ Microstep.remaining t q.state.configuration us) : n < t.size :=
        hg.active n (Microstep.mem_remaining.mp hn).left
      rw [hc, Microstep.next]
      split
      case isTrue => exact hrest
      case isFalse =>
        refine Tree.resolve_lt wf (Microstep.historyAfter_within wf hl hs.within) fun x hx => ?_
        cases (List.mem_append.mp hx)
        case inl hx => exact hrest x hx
        case inr hx =>
          obtain ⟨u, hu, hx⟩ := List.mem_flatMap.mp hx
          exact wf.targets u (hsel.declared hu) x hx
    case refine_2 =>
      rw [hh]
      intro k r hr
      by_contra hk
      rw [Microstep.historyAfter,
        History.find?_recordExit_of_not_history _ (Bool.of_not_eq_true hk)] at hr
      exact hk (hg.recorded k r hr)

theorem run_grounded (wf : t.WellFormed) (hs : s.Steady t) (hg : s.Grounded t)
    (h : (run t r config commit shell s trigger).outcome = .ok p) : p.state.Grounded t := by
  have hs : s.Steady t ∧ s.Grounded t := ⟨hs, hg⟩
  refine (run_preserves (J := fun _ s => s.Steady t ∧ s.Grounded t) ?_ ?_ ?_ hs h).right
  case refine_1 =>
    intro q us q' e eventless hq _ hsel hus ht
    have hs := sound_of_selection hq.left hsel hus
    have hs' := takes_sound wf hs ht
    exact ⟨⟨.inr hs'.legal, hs'.within, hs'.joint⟩, takes_grounded wf hs hq.right hsel ht⟩
  case refine_2 =>
    intro p hp
    have hs' := started_sound wf hs.left hp
    refine ⟨⟨.inr hs'.legal, hs'.within, hs'.joint⟩, ?_⟩
    cases hp with
    | start hm _ => exact initial_grounded wf hs.left hs.right hm
    | event hsel hus ht =>
      exact takes_grounded wf (q := opening ..) (sound_of_selection hs.left hsel hus) hs.right hsel
        ht
  case refine_3 =>
    intro _ s m _ _ _ hs _
    exact ⟨⟨hs.left.legal, hs.left.within, hs.left.joint⟩,
      ⟨hs.right.active, hs.right.recorded, hs.right.ended⟩⟩

end Macrostep

-- The same state when nobody asks what the machine has ended with.
def MachineState.withoutData {C : Type} (s : MachineState C) : MachineState C :=
  { s with doneData := none }

theorem MachineState.Grounded.withoutData_eq {C : Type} {t : Tree} {s : MachineState C}
    (hs : s.Grounded t) (hd : s.done = false) : s.withoutData = s := by
  have hn : s.doneData = none := not_not.mp fun hn => by simp [hs.ended hn] at hd
  rw [withoutData, ← hn]

namespace Checkpoint

variable {C : Type} {t : Tree} {s : MachineState C} {k : NodeIndex} {r : NodeSet}

-- How a record is written down.
def written (t : Tree) (e : NodeIndex × NodeSet) : String × List String :=
  ((t.node e.1).id, t.ids e.2.toList)

theorem reads_written (hi : t.Identified) (wf : t.WellFormed) (hs : s.Steady t)
    (hg : s.Grounded t) {e : NodeIndex × NodeSet} (he : e ∈ s.history.entries) :
    Reads t (written t e) e := by
  obtain ⟨k, r⟩ := e
  have hf := SortedMap.find?_eq_some.mpr he
  have hk := hg.recorded k r hf
  obtain ⟨p, hp⟩ := wf.exists_parent_of_history hk
  have hr n (hn : n ∈ r) : n < t.size :=
    Tree.lt_size_of_ancestor (hs.within k p r hk (wf.parent_of_child hp) hf n hn).left
  exact ⟨⟨(wf.child hp).left, rfl, hk⟩, lists_ids hi hr⟩

theorem mem_written (hi : t.Identified) (wf : t.WellFormed) (hs : s.Steady t)
    (hg : s.Grounded t) {e : String × List String} :
    e ∈ (SortedMap.ofList (s.history.entries.map (written t))).entries ↔
      ∃ r ∈ s.history.entries, written t r = e := by
  rw [← SortedMap.find?_eq_some, SortedMap.find?_ofList, List.mem_map]
  refine List.pairwise_map.mpr (s.history.entries_distinct.imp_of_mem fun {a b} ha hb hne he => ?_)
  have ha := (reads_written hi wf hs hg ha).left.left
  have hb := (reads_written hi wf hs hg hb).left.left
  have hab := hi.indexOf?_id ha
  rw [show (t.node a.1).id = (t.node b.1).id from he, hi.indexOf?_id hb] at hab
  exact hne (Option.some.inj hab).symm

-- What is captured is accepted for the state it was captured from, without what that ended with.
theorem capture_accepted (hi : t.Identified) (wf : t.WellFormed) (hs : s.Steady t)
    (hg : s.Grounded t) (hl : s.configuration.isLegal t = true) (id : Uuid)
    (timestamp : Timestamp) :
    (capture t id timestamp s).Accepted t s.withoutData where
  version := rfl
  machineId := rfl
  configuration := lists_ids hi hg.active
  legal := hl
  history := {
    known := by
      intro e he
      obtain ⟨r, hr, rfl⟩ := (mem_written hi wf hs hg).mp he
      exact ⟨r, reads_written hi wf hs hg hr⟩
    find := by
      intro k r
      rw [SortedMap.find?_eq_some]
      constructor
      case mp =>
        intro hr
        exact ⟨_, (mem_written hi wf hs hg).mpr ⟨_, hr, rfl⟩, reads_written hi wf hs hg hr⟩
      case mpr =>
        rintro ⟨e, he, hr⟩
        obtain ⟨r', hr', rfl⟩ := (mem_written hi wf hs hg).mp he
        rwa [hr.unique hi (reads_written hi wf hs hg hr')] }
  context := rfl
  done := rfl
  doneData := rfl

end Checkpoint

theorem Definition.State.build_identified {machineId : String} {root : Definition.State} {t : Tree}
    (h : root.build machineId = .ok t) : t.Identified :=
  fun _ _ => build_indexOf? h

def MachineStep.withoutData {C : Type} (s : MachineStep C) : MachineStep C :=
  { s with state := s.state.withoutData }

namespace Machine

variable {C S : Type} {m : Machine C S} {es : List Event} {step : MachineStep C}
  {s : MachineState C}

-- Goes on with `es`.
def playOn (m : Machine C S) (es : List Event) (s : MachineStep C) : Turn C (MachineStep C) :=
  es.foldlM (fun s e => m.transition s.state e) s

theorem play_grounded (wf : m.tree.WellFormed) (h : (m.play es).outcome = .ok step) :
    step.state.Steady m.tree ∧ step.state.Grounded m.tree := by
  refine play_preserves (I := fun s => s.Steady m.tree ∧ s.Grounded m.tree) ?_ ?_ h
  case refine_1 =>
    refine ⟨⟨.inl rfl, History.empty_within, History.empty_joint⟩, ⟨?_, ?_, ?_⟩⟩
    · simp [MachineState.unstarted]
    · simp [MachineState.unstarted, History.find?_empty]
    · simp [MachineState.unstarted]
  case refine_2 =>
    intro s trigger p hs _ _ hp
    exact ⟨Macrostep.run_steady wf hs.left hp, Macrostep.run_grounded wf hs.left hs.right hp⟩

-- Once a machine is done, events change nothing.
theorem playOn_of_done (h : s.done = true) : m.playOn es { state := s } = pure { state := s } := by
  induction es with
  | nil => rfl
  | cons e rest ih =>
    rw [playOn, List.foldlM_cons, transition_of_done h, pure_bind]
    exact ih

-- A machine that is not done comes back from its checkpoint just as it was, and one that is done
-- without what it ended with. Either way it goes on as it would have done.
theorem capture_restores {machineId : String} {root : Definition.State}
    (hb : root.build machineId = .ok m.tree) (h : (m.play es).outcome = .ok step)
    (hl : step.state.configuration.isLegal m.tree = true) (id : Uuid) (timestamp : Timestamp) :
    ∃ s, (Checkpoint.capture m.tree id timestamp step.state).state m.tree = .ok s ∧
      s = step.state.withoutData ∧ (step.state.done = false → s = step.state) ∧
      ∀ later, MachineStep.withoutData <$> m.playOn later { state := s } =
        MachineStep.withoutData <$> m.playOn later { state := step.state } := by
  have wf := Definition.State.build_wellFormed hb
  have hi := Definition.State.build_identified hb
  obtain ⟨hs, hg⟩ := play_grounded wf h
  have hc := Checkpoint.capture_accepted hi wf hs hg hl id timestamp
  refine ⟨_, (Checkpoint.state_eq_ok hi).mpr hc, rfl, hg.withoutData_eq, fun later => ?_⟩
  cases hd : step.state.done
  case false => rw [hg.withoutData_eq hd]
  case true =>
    rw [playOn_of_done hd, playOn_of_done (s := step.state.withoutData) hd]
    rfl

end Machine

def Uuid.nil : Uuid := ⟨List.replicate 16 0, rfl⟩

def Timestamp.epoch : Timestamp where
  date := ⟨1970, 1, 1, by decide, by decide, by decide, by decide, by decide, by decide⟩
  minutes := 0
  second := 0
  nanos := 0
  minutes_lt := by decide
  second_le := by decide
  nanos_lt := by decide

-- An errand that is over as soon as it begins.
def errand : Definition.State :=
  .mk { key := "m", initial := some "home" } [
    .mk { key := "home", shape := .final, data := some (.int 1) } []]

def errandTree : Tree := ((Definition.Layout.ofState "m" errand).lower "m").value

theorem errand_build : errand.build "m" = .ok errandTree :=
  Definition.State.build_of_problems (by decide +kernel)

def errandMachine : Machine Unit Unit := { tree := errandTree, registry := {}, context := () }

namespace Machine

theorem errand_play : ∃ step, (errandMachine.play []).outcome = .ok step ∧
    step.state.configuration = .ofList [0, 1] ∧ step.state.done = true ∧
    step.state.doneData = some (.int 1) := by
  obtain ⟨i, hm, hc, hd, hj⟩ : ∃ i,
      Microstep.initial errandMachine.tree errandMachine.registry .init () ∅ = .ok i ∧
        i.configuration = .ofList [0, 1] ∧ i.done = true ∧ i.doneData = some (.int 1) :=
    Microstep.exists_eq_ok (by decide +kernel)
  let p : Progress (List Planned) Unit :=
    { shell := [], state := .unstarted (), current := .init : Progress _ _ }.accept i.actions i
  have hq : (Macrostep.loop errandMachine.tree errandMachine.registry errandMachine.config
      noteActions p).outcome = .ok p :=
    Macrostep.loop_of_stops noteActions
      (.done (by simp [p, Progress.accept, MachineState.after, hd]))
  have hrun : (Macrostep.run _ _ _ noteActions [] (.unstarted ()) .start).outcome = _ :=
    Macrostep.run_start_of_initial errandMachine.config hm rfl
  refine ⟨_, by rw [play_nil, initialState, run_outcome]; exact congrArg _ (hrun.trans hq), hc, ?_⟩
  simp [p, Progress.accept, MachineState.after, hd, hj]

theorem capture_restores_errand : ∃ step, (errandMachine.play []).outcome = .ok step ∧
    step.state.configuration.isLegal errandTree = true ∧ ∃ s,
      (Checkpoint.capture errandTree .nil .epoch step.state).state errandTree = .ok s ∧
        s.configuration = .ofList [0, 1] ∧ s.done = true ∧ s.doneData = none := by
  obtain ⟨step, h, hc, hd, _⟩ := errand_play
  have hl : step.state.configuration.isLegal errandMachine.tree = true := by
    rw [hc]
    decide +kernel
  obtain ⟨s, hs, he, _, _⟩ := capture_restores errand_build h hl .nil .epoch
  exact ⟨step, h, hl, s, hs, by rw [he]; exact hc, by rw [he]; exact hd, by rw [he]; rfl⟩

-- What the errand ended with does not come back.
theorem exists_data_lost : ¬ ∀ (root : Definition.State) (machineId : String)
    (m : Machine Unit Unit) (es : List Event) (step : MachineStep Unit) (id : Uuid)
    (timestamp : Timestamp), root.build machineId = .ok m.tree → (m.play es).outcome = .ok step →
      step.state.configuration.isLegal m.tree = true →
      (Checkpoint.capture m.tree id timestamp step.state).state m.tree = .ok step.state := by
  intro h
  obtain ⟨step, hp, hc, _, hj⟩ := errand_play
  have hl : step.state.configuration.isLegal errandMachine.tree = true := by
    rw [hc]
    decide +kernel
  have hs := h errand "m" errandMachine [] step .nil .epoch errand_build hp hl
  have hi := Definition.State.build_identified errand_build
  have hn := ((Checkpoint.state_eq_ok (t := errandTree) hi).mp hs).doneData
  rw [hj] at hn
  contradiction

end Machine

end Statechart
