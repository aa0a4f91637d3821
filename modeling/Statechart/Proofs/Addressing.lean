import Statechart.Proofs.Diagnosis
import Statechart.Proofs.KeyPath

-- How the targets that are written in a definition address its states: by an id, or by the keys on
-- the way down from a state.

namespace Statechart

namespace KeyPath

theorem intercalate_split (path : String) : ".".intercalate (split path) = path := by
  apply String.toList_inj.mp
  rw [String.toList_intercalate, split, List.map_map, splitChars_eq_splitOn]
  change ['.'].intercalate ((path.toList.splitOn '.').map fun cs => (String.ofList cs).toList) = _
  simp only [String.toList_ofList, List.map_id']
  exact List.intercalate_splitOn '.'

-- A path begins with its first key.
theorem head?_intercalate {key : String} {more : List String} (hk : key ≠ "") :
    (".".intercalate (key :: more)).toList.head? = key.toList.head? := by
  have hk : key.toList ≠ [] := by simpa using hk
  obtain ⟨c, cs, hc⟩ := List.exists_cons_of_ne_nil hk
  cases more <;> simp [String.toList_intercalate, hc]

end KeyPath

namespace Definition

mutual

-- Children are laid out with the keys that are written in them.
theorem key_of_mem_place {path key : String} {ancestors : List NodeIndex} {index : NodeIndex}
    {p : Placed} : (s : State) → key = s.spec.key → p ∈ place path key ancestors index s →
      p.key = p.spec.key
  | .mk spec cs, hk, hp => by
    rcases List.mem_cons.mp hp with rfl | hp
    · exact hk
    · exact key_of_mem_placeAll cs hp

theorem key_of_mem_placeAll {path : String} {ancestors : List NodeIndex} {index : NodeIndex}
    {p : Placed} : (cs : List State) → p ∈ placeAll path ancestors index cs → p.key = p.spec.key
  | s :: rest, hp => by
    rcases List.mem_append.mp hp with hp | hp
    · exact key_of_mem_place s rfl hp
    · exact key_of_mem_placeAll rest hp

end

namespace Layout

variable {l : Layout} {n m d p a : NodeIndex} {key : String}

-- The keys on the way from `n` down to `d`, as they are written in the definition.
def keysBelow (l : Layout) (n d : NodeIndex) : List String :=
  (((l.path d).takeWhile (· ≠ n)).map fun m => (l.placed m).spec.key).reverse

@[simp] theorem keysBelow_self : l.keysBelow n n = [] := by
  simp [keysBelow, path]

def keyPath (l : Layout) (n d : NodeIndex) : String := ".".intercalate (l.keysBelow n d)

-- Keys can stand in paths, and tell the children of a state apart.
structure Keyed (l : Layout) : Prop where
  written {n c} : c ∈ (l.placed n).children → (l.placed c).key = (l.placed c).spec.key
  nonempty {n c} : c ∈ (l.placed n).children → (l.placed c).spec.key ≠ ""
  dotless {n c} : c ∈ (l.placed n).children → '.' ∉ (l.placed c).spec.key.toList
  hashless {n c} : c ∈ (l.placed n).children → (l.placed c).spec.key.toList.head? ≠ some '#'
  distinct {n a b} : a ∈ (l.placed n).children → b ∈ (l.placed n).children →
    (l.placed a).spec.key = (l.placed b).spec.key → a = b

namespace InDocumentOrder

variable (ord : l.InDocumentOrder) {before below rest : List NodeIndex}
include ord

-- The nearest ancestor of a state has it as a child.
theorem parent (h : (l.placed n).ancestors = p :: rest) :
    l.path p = p :: rest ∧ n ∈ (l.placed p).children := by
  have hn : n < l.size := by
    by_contra hn
    rw [placed_of_size_le (not_lt.mp hn)] at h
    cases h
  cases n with
  | zero => cases h.symm.trans ord.root_ancestors
  | succ n =>
    obtain ⟨q, _, hq, hc⟩ := ord.follows hn
    have hpq := h.symm.trans hq
    obtain rfl : p = q := (List.cons.inj hpq).left
    exact ⟨hpq.symm, hc⟩

-- From any state on, the way up is that state's own.
theorem path_of_append (h : l.path n = before ++ a :: rest) : l.path a = a :: rest := by
  induction before generalizing n with
  | nil =>
    obtain rfl : n = a := (List.cons.inj h).left
    exact h
  | cons m before ih =>
    cases before with
    | nil => exact (ord.parent (List.cons.inj h).right).left
    | cons p before => exact ih (ord.parent (List.cons.inj h).right).left

theorem path_eq_append (hn : n ∈ l.path d) :
    l.path d = (l.path d).takeWhile (· ≠ n) ++ l.path n := by
  obtain ⟨below, rest, h, hb⟩ := List.eq_append_cons_of_mem hn
  rw [ord.path_of_append h, h, List.takeWhile_append_of_pos]
  · simp
  · intro m hm
    simp only [ne_eq, decide_eq_true_eq]
    exact fun he => hb (he ▸ hm)

theorem keysBelow_of_path (h : l.path d = below ++ l.path n) :
    l.keysBelow n d = (below.map fun m => (l.placed m).spec.key).reverse := by
  have hn : n ∈ l.path d := h ▸ List.mem_append_right _ List.mem_cons_self
  rw [keysBelow, List.append_cancel_right ((ord.path_eq_append hn).symm.trans h)]

-- Every key on a way down is that of a child.
theorem exists_child_of_key (hn : n ∈ l.path d) (h : key ∈ l.keysBelow n d) :
    ∃ p, ∃ c ∈ (l.placed p).children, (l.placed c).spec.key = key := by
  obtain ⟨c, hc, hkey⟩ := List.mem_map.mp (List.mem_reverse.mp h)
  obtain ⟨before, rest, hsplit⟩ := List.append_of_mem hc
  have hpath : l.path d = before ++ c :: (rest ++ l.path n) := by
    rw [ord.path_eq_append hn, hsplit, List.append_assoc]
    rfl
  have hancestors : (l.placed c).ancestors = rest ++ l.path n :=
    (List.cons.inj (ord.path_of_append hpath)).right
  obtain ⟨p, above, hp⟩ := List.exists_cons_of_ne_nil (l := rest ++ l.path n) (by simp [path])
  exact ⟨p, c, (ord.parent (hancestors.trans hp)).right, hkey⟩

theorem exists_parent (hn : n ∈ (l.placed d).ancestors) :
    ∃ p, n ∈ l.path p ∧ d ∈ (l.placed p).children := by
  obtain ⟨p, rest, h⟩ := List.exists_cons_of_ne_nil (List.ne_nil_of_mem hn)
  obtain ⟨hp, hd⟩ := ord.parent h
  exact ⟨p, hp ▸ h ▸ hn, hd⟩

-- The last key of a path is that of the state it leads to.
theorem keysBelow_child (hm : m ∈ (l.placed p).children) (hn : n ∈ l.path p) :
    l.keysBelow n m = l.keysBelow n p ++ [(l.placed m).spec.key] := by
  have hpath : l.path m = (m :: (l.path p).takeWhile (· ≠ n)) ++ l.path n := by
    rw [List.cons_append, ← ord.path_eq_append hn, path, (ord.child hm).right]
  rw [ord.keysBelow_of_path hpath, List.map_cons, List.reverse_cons]
  rfl

theorem keysBelow_ne_nil (hn : n ∈ (l.placed d).ancestors) : l.keysBelow n d ≠ [] := by
  obtain ⟨p, hp, hd⟩ := ord.exists_parent hn
  simp [ord.keysBelow_child hd hp]

end InDocumentOrder

namespace Keyed

variable (hk : l.Keyed)
include hk

theorem childWithKey?_eq_some :
    l.childWithKey? n key = some m ↔ m ∈ (l.placed n).children ∧ (l.placed m).spec.key = key := by
  have hfound {c} (hc : l.childWithKey? n key = some c) :
      c ∈ (l.placed n).children ∧ (l.placed c).spec.key = key := by
    have hmem := List.mem_of_find?_eq_some hc
    have hkey : (l.placed c).key = key := by
      rw [childWithKey?] at hc
      simpa using List.find?_some hc
    exact ⟨hmem, hk.written hmem ▸ hkey⟩
  constructor
  case mp => exact hfound
  case mpr =>
    rintro ⟨hm, hkey⟩
    cases hc : l.childWithKey? n key with
    | none =>
      have hne := List.find?_eq_none.mp hc m hm
      simp [hk.written hm, hkey] at hne
    | some c =>
      have ⟨hcn, hckey⟩ := hfound hc
      rw [hk.distinct hcn hm (hckey.trans hkey.symm)]

variable (ord : l.InDocumentOrder)
include ord

-- By induction on the keys from the last one, which is that of the state the keys lead to.
theorem descend_eq_some {keys : List String} :
    keys.foldlM (l.childWithKey? · ·) n = some d ↔ n ∈ l.path d ∧ l.keysBelow n d = keys := by
  induction keys using List.reverseRecOn generalizing d with
  | nil =>
    constructor
    case mp =>
      intro h
      obtain rfl : n = d := Option.some.inj h
      exact ⟨List.mem_cons_self, keysBelow_self⟩
    case mpr =>
      rintro ⟨hn, hkeys⟩
      rcases List.mem_cons.mp hn with rfl | hn
      · rfl
      · exact absurd hkeys (ord.keysBelow_ne_nil hn)
  | append_singleton keys key ih =>
    simp only [List.foldlM_append, List.foldlM_cons, List.foldlM_nil, bind_pure,
      Option.bind_eq_bind, Option.bind_eq_some_iff, ih, hk.childWithKey?_eq_some]
    constructor
    case mp =>
      rintro ⟨p, ⟨hn, rfl⟩, hd, rfl⟩
      refine ⟨?_, ord.keysBelow_child hd hn⟩
      exact List.mem_cons_of_mem _ ((ord.child hd).right ▸ hn)
    case mpr =>
      rintro ⟨hn, hkeys⟩
      rcases List.mem_cons.mp hn with rfl | hn
      · simp at hkeys
      obtain ⟨p, hp, hd⟩ := ord.exists_parent hn
      rw [ord.keysBelow_child hd hp] at hkeys
      obtain ⟨hkeys, hkey⟩ := List.append_inj' hkeys rfl
      exact ⟨p, ⟨hp, hkeys⟩, hd, List.singleton_inj.mp hkey⟩

-- A path leads to a state below `n` exactly if it is the one that its keys make up.
theorem descend?_eq_some {path : String} :
    l.descend? n path = some d ↔ n ∈ (l.placed d).ancestors ∧ path = l.keyPath n d := by
  rw [descend?, hk.descend_eq_some ord]
  constructor
  case mp =>
    rintro ⟨hn, hkeys⟩
    rcases List.mem_cons.mp hn with rfl | hn
    · exact absurd (keysBelow_self.symm.trans hkeys).symm (split_ne_nil path)
    · exact ⟨hn, by rw [keyPath, hkeys, KeyPath.intercalate_split]⟩
  case mpr =>
    rintro ⟨hn, rfl⟩
    have hpath : n ∈ l.path d := List.mem_cons_of_mem _ hn
    refine ⟨hpath, (KeyPath.split_intercalate (ord.keysBelow_ne_nil hn) fun key hkey => ?_).symm⟩
    obtain ⟨p, c, hc, rfl⟩ := ord.exists_child_of_key hpath hkey
    exact hk.dotless hc

-- What leads down from a state is not mistaken for an id, nor for a path from another state.
theorem head?_keyPath (hn : n ∈ (l.placed d).ancestors) :
    (l.keyPath n d).toList.head? ≠ some '#' ∧ (l.keyPath n d).toList.head? ≠ some '.' := by
  obtain ⟨key, more, hkeys⟩ := List.exists_cons_of_ne_nil (ord.keysBelow_ne_nil hn)
  obtain ⟨p, c, hc, rfl⟩ := ord.exists_child_of_key (List.mem_cons_of_mem _ hn)
    (hkeys ▸ List.mem_cons_self)
  rw [keyPath, hkeys, KeyPath.head?_intercalate (hk.nonempty hc)]
  exact ⟨hk.hashless hc, fun h => hk.dotless hc (List.mem_of_head? h)⟩

end Keyed

-- Where a path begins that does not start with a dot.
def base (l : Layout) (n : NodeIndex) : NodeIndex := (l.parent? n).getD n

theorem eq_append_of_head? {x : String} {c : Char} (h : x.toList.head? = some c) :
    ∃ y, x = String.ofList [c] ++ y := by
  obtain ⟨cs, hx⟩ := List.head?_eq_some_iff.mp h
  refine ⟨String.ofList cs, String.toList_inj.mp ?_⟩
  simp [hx]

theorem target?_hash (id : String) : l.target? n ("#" ++ id) = l.indexOf? id := by
  have h : ("#" ++ id).toList = '#' :: id.toList := by rw [String.toList_append]; rfl
  simp [target?, h]

theorem target?_dot (path : String) : l.target? n ("." ++ path) = l.descend? n path := by
  have h : ("." ++ path).toList = '.' :: path.toList := by rw [String.toList_append]; rfl
  simp [target?, h]

theorem target?_of_head? {path : String} (hid : path.toList.head? ≠ some '#')
    (hdot : path.toList.head? ≠ some '.') : l.target? n path = l.descend? (l.base n) path := by
  simp only [target?]
  split
  case h_1 h => simp [h] at hid
  case h_2 h => simp [h] at hdot
  case h_3 => rw [List.headD_eq_head?_getD]; rfl

namespace Keyed

variable (hk : l.Keyed) (ord : l.InDocumentOrder) {x path : String}
include hk ord

theorem target?_dot_eq_some : l.target? n ("." ++ path) = some d ↔
    n ∈ (l.placed d).ancestors ∧ path = l.keyPath n d := by
  rw [target?_dot, hk.descend?_eq_some ord]

theorem target?_of_head?_eq_some (hid : path.toList.head? ≠ some '#')
    (hdot : path.toList.head? ≠ some '.') : l.target? n path = some d ↔
      l.base n ∈ (l.placed d).ancestors ∧ path = l.keyPath (l.base n) d := by
  rw [target?_of_head? hid hdot, hk.descend?_eq_some ord]

-- Every state below `n` has one path that starts with a dot.
theorem existsUnique_dot (hd : n ∈ (l.placed d).ancestors) :
    ∃! x, x.toList.head? = some '.' ∧ l.target? n x = some d := by
  refine ⟨"." ++ l.keyPath n d, ⟨by simp, (hk.target?_dot_eq_some ord).mpr ⟨hd, rfl⟩⟩, ?_⟩
  rintro x ⟨hdot, hx⟩
  obtain ⟨path, rfl⟩ := eq_append_of_head? hdot
  rw [((hk.target?_dot_eq_some ord).mp hx).right]

theorem existsUnique_path (hd : l.base n ∈ (l.placed d).ancestors) :
    ∃! x, x.toList.head? ≠ some '#' ∧ x.toList.head? ≠ some '.' ∧ l.target? n x = some d := by
  have ⟨hid, hdot⟩ := hk.head?_keyPath ord hd
  refine ⟨l.keyPath (l.base n) d,
    ⟨hid, hdot, (hk.target?_of_head?_eq_some ord hid hdot).mpr ⟨hd, rfl⟩⟩, ?_⟩
  rintro x ⟨hid, hdot, hx⟩
  exact ((hk.target?_of_head?_eq_some ord hid hdot).mp hx).right

end Keyed

-- The ways to write a target on the state `n` for which it is the state `d`.
inductive Addresses (l : Layout) (n : NodeIndex) : String → NodeIndex → Prop
  | id {d : NodeIndex} : d < l.size → Addresses l n ("#" ++ l.nodeId d) d
  | below {d : NodeIndex} : n ∈ (l.placed d).ancestors → Addresses l n ("." ++ l.keyPath n d) d
  | beside {d : NodeIndex} : l.base n ∈ (l.placed d).ancestors →
      Addresses l n (l.keyPath (l.base n) d) d

section Distinct

variable (hids : ∀ n < l.size, ∀ m < l.size, l.nodeId n = l.nodeId m → n = m)
include hids

theorem indexOf?_eq_some {id : String} :
    l.indexOf? id = some n ↔ n < l.size ∧ l.nodeId n = id := by
  constructor
  case mp =>
    intro h
    obtain ⟨hn, hid, _⟩ := Array.findIdx?_eq_some_iff_getElem.mp h
    exact ⟨hn, by simpa [nodeId, placed, hn] using hid⟩
  case mpr =>
    rintro ⟨hn, rfl⟩
    exact (indexOf?_nodeId hn).mpr fun m hm he => hm.ne (hids m (hm.trans hn) n hn he)

-- A target is told by its first character to be of one of the three forms.
theorem Keyed.target?_eq_some (hk : l.Keyed) (ord : l.InDocumentOrder) {x : String} :
    l.target? n x = some d ↔ l.Addresses n x d := by
  constructor
  case mp =>
    intro h
    by_cases hid : x.toList.head? = some '#'
    case pos =>
      obtain ⟨id, rfl⟩ := eq_append_of_head? hid
      obtain ⟨hd, rfl⟩ := (indexOf?_eq_some hids).mp ((target?_hash id).symm.trans h)
      exact .id hd
    by_cases hdot : x.toList.head? = some '.'
    case pos =>
      obtain ⟨path, rfl⟩ := eq_append_of_head? hdot
      obtain ⟨hn, rfl⟩ := (hk.target?_dot_eq_some ord).mp h
      exact .below hn
    case neg =>
      obtain ⟨hn, rfl⟩ := (hk.target?_of_head?_eq_some ord hid hdot).mp h
      exact .beside hn
  case mpr =>
    intro h
    cases h with
    | id hd => exact (target?_hash _).trans ((indexOf?_eq_some hids).mpr ⟨hd, rfl⟩)
    | below hn => exact (hk.target?_dot_eq_some ord).mpr ⟨hn, rfl⟩
    | beside hn =>
      have ⟨hid, hdot⟩ := hk.head?_keyPath ord hn
      exact (hk.target?_of_head?_eq_some ord hid hdot).mpr ⟨hn, rfl⟩

end Distinct

end Layout

-- All targets that are written in a state, in its invocations and as its defaults, too.
def StateSpec.writtenTargets (s : StateSpec) : List String :=
  s.transitions.flatMap (·.2.targets) ++
    s.invocations.flatMap (fun i => (i.onDone.toList ++ i.onError.toList).flatMap (·.targets)) ++
    s.targets

theorem StateSpec.writtenTargets_eq (id : String) (s : StateSpec) :
    s.writtenTargets = (s.listeners id).flatMap (·.2.targets) ++ s.targets := by
  have hi (i : InvokeSpec) (k : Nat) : (i.outcomes (i.actorId id k)).flatMap (·.2.targets) =
      (i.onDone.toList ++ i.onError.toList).flatMap (·.targets) := by
    simp [InvokeSpec.outcomes, List.flatMap_map]
  rw [listeners, List.flatMap_append, List.flatMap_map, List.flatMap_assoc]
  simp only [hi]
  rw [writtenTargets, ← List.zipIdx_map_fst 0 s.invocations, List.flatMap_map]
  simp

namespace State

variable {machineId : String} {root : State} {n c : NodeIndex}

-- No two states have the same id, and keys can stand in paths and tell siblings apart.
structure Addressable (machineId : String) (root : State) : Prop where
  ids : ∀ n < (Layout.ofState machineId root).size, ∀ m < (Layout.ofState machineId root).size,
    (Layout.ofState machineId root).nodeId n = (Layout.ofState machineId root).nodeId m → n = m
  nonempty : ∀ s ∈ root.listed, ∀ c ∈ s.children, c.spec.key ≠ ""
  dotless : ∀ s ∈ root.listed, ∀ c ∈ s.children, '.' ∉ c.spec.key.toList
  hashless : ∀ s ∈ root.listed, ∀ c ∈ s.children, c.spec.key.toList.head? ≠ some '#'
  siblings : ∀ s ∈ root.listed, (s.children.map (·.spec.key)).Nodup

theorem key_placed (hn : n < (Layout.ofState machineId root).size) (hroot : n ≠ 0) :
    ((Layout.ofState machineId root).placed n).key =
      ((Layout.ofState machineId root).placed n).spec.key := by
  cases root with
  | mk spec cs =>
    cases n with
    | zero => contradiction
    | succ n =>
      have hmem : (Layout.ofState machineId (.mk spec cs)).placed (n + 1) ∈
          placeAll machineId [0] 1 cs := by
        rw [Layout.placed, Array.getElem?_eq_getElem hn]
        exact List.getElem_mem (Nat.lt_of_succ_lt_succ hn)
      exact key_of_mem_placeAll cs hmem

theorem exists_listed_child (hc : c ∈ ((Layout.ofState machineId root).placed n).children) :
    ∃ s, root.listed[n]? = some s ∧ ∃ s' ∈ s.children, root.listed[c]? = some s' := by
  have hn : n < (Layout.ofState machineId root).size := by
    by_contra hn
    rw [Layout.placed_of_size_le (not_lt.mp hn)] at hc
    cases hc
  rw [Layout.size_ofState, ← length_listed] at hn
  have hs := List.getElem?_eq_getElem hn
  obtain ⟨s', hs', hcs'⟩ := List.mem_map.mp
    (children_listed machineId hs ▸ List.mem_map_of_mem (f := (root.listed[·]?)) hc)
  exact ⟨_, hs, s', hs', hcs'.symm⟩

theorem Addressable.keyed (ha : root.Addressable machineId) :
    (Layout.ofState machineId root).Keyed := by
  have ord := Layout.ofState_inDocumentOrder machineId root
  have hchild (P : String → Prop)
      (hP : ∀ s ∈ root.listed, ∀ c ∈ s.children, P c.spec.key) {n c : NodeIndex}
      (hc : c ∈ ((Layout.ofState machineId root).placed n).children) :
      P ((Layout.ofState machineId root).placed c).spec.key := by
    obtain ⟨s, hs, s', hs', hcs⟩ := exists_listed_child hc
    exact spec_listed machineId hcs ▸ hP s (List.mem_of_getElem? hs) s' hs'
  exact {
    written := by
      intro n c hc
      refine key_placed (ord.child hc).left ?_
      rintro rfl
      simpa [Layout.path] using (ord.child hc).right.symm.trans ord.root_ancestors
    nonempty := hchild (· ≠ "") ha.nonempty
    dotless := hchild ('.' ∉ ·.toList) ha.dotless
    hashless := hchild (·.toList.head? ≠ some '#') ha.hashless
    distinct := by
      intro n a b han hbn hab
      have hkey {c} (hc : c ∈ ((Layout.ofState machineId root).placed n).children) :
          root.listed[c]?.map (·.spec.key) =
            some ((Layout.ofState machineId root).placed c).spec.key := by
        obtain ⟨_, _, s', _, hcs⟩ := exists_listed_child hc
        rw [hcs, spec_listed machineId hcs]
        rfl
      obtain ⟨s, hs, _⟩ := exists_listed_child han
      have hnodup : ((((Layout.ofState machineId root).placed n).children.map
          (root.listed[·]?)).map (Option.map (·.spec.key))).Nodup := by
        rw [children_listed machineId hs, List.map_map]
        have hsiblings := ha.siblings s (List.mem_of_getElem? hs)
        simpa [Function.comp_def] using hsiblings.map (Option.some_injective _)
      rw [List.map_map] at hnodup
      exact List.inj_on_of_nodup_map hnodup han hbn
        ((hkey han).trans ((congrArg some hab).trans (hkey hbn).symm)) }

-- What is reported of the targets on a state.
theorem mem_problems_unresolvedTarget {id x : String} :
    .unresolvedTarget id x ∈ root.problems machineId ↔
      ∃ n < (Layout.ofState machineId root).size, (Layout.ofState machineId root).nodeId n = id ∧
        x ∈ ((Layout.ofState machineId root).placed n).spec.writtenTargets ∧
        (Layout.ofState machineId root).target? n x = none := by
  rw [(enumerates_problems machineId root ({} : Registry Unit Unit)).mem_iff]
  constructor
  case mp =>
    rintro ⟨q, _, h, _⟩
    have hn := h.lt_size
    cases h with
    | unresolvedTarget hk hj hx =>
      refine ⟨_, hn, rfl, ?_, hx⟩
      rw [StateSpec.writtenTargets_eq, List.mem_append, List.mem_flatMap]
      exact .inl ⟨_, List.mem_of_getElem? hk, List.mem_of_getElem? hj⟩
    | unresolvedDefault hj hx =>
      refine ⟨_, hn, rfl, ?_, hx⟩
      exact List.mem_append_right _ (List.mem_of_getElem? hj)
    | entry _ hu | exit _ hu | action _ _ hu => cases hu
  case mpr =>
    rintro ⟨n, hn, rfl, hw, hx⟩
    rw [StateSpec.writtenTargets_eq, List.mem_append, List.mem_flatMap] at hw
    rcases hw with ⟨y, hy, hw⟩ | hw
    case inl =>
      obtain ⟨k, hk⟩ := List.getElem?_of_mem hy
      obtain ⟨j, hj⟩ := List.getElem?_of_mem hw
      exact ⟨.target n k j, by simp [Requirement.stage],
        (reported_iff_breaks (.inr rfl)).mp (.unresolvedTarget hk hj hx)⟩
    case inr =>
      obtain ⟨j, hj⟩ := List.getElem?_of_mem hw
      exact ⟨.default n j, by simp [Requirement.stage],
        (reported_iff_breaks (.inr rfl)).mp (.unresolvedDefault hj hx)⟩

theorem exists_build_error {p : Problem} :
    (∃ ps, root.build machineId = .error ps ∧ p ∈ ps) ↔ p ∈ root.problems machineId := by
  by_cases hp : root.problems machineId = []
  case pos => simp [build_of_problems hp, hp]
  case neg => simp [build, check, hp, bind, Except.bind]

namespace Addressable

variable (ha : root.Addressable machineId) (hn : n < (Layout.ofState machineId root).size)
include ha

theorem target?_eq_some {x : String} {d : NodeIndex} :
    (Layout.ofState machineId root).target? n x = some d ↔
      (Layout.ofState machineId root).Addresses n x d :=
  ha.keyed.target?_eq_some ha.ids (Layout.ofState_inDocumentOrder machineId root)

include hn

-- A target is reported if it has none of the forms.
theorem reports_unresolvedTarget {x : String} :
    (∃ ps, root.build machineId = .error ps ∧
      .unresolvedTarget ((Layout.ofState machineId root).nodeId n) x ∈ ps) ↔
    x ∈ ((Layout.ofState machineId root).placed n).spec.writtenTargets ∧
      ∀ d, ¬ (Layout.ofState machineId root).Addresses n x d := by
  have hnone : (Layout.ofState machineId root).target? n x = none ↔
      ∀ d, ¬ (Layout.ofState machineId root).Addresses n x d := by
    simp only [← ha.target?_eq_some, Option.eq_none_iff_forall_ne_some, ne_eq]
  rw [exists_build_error, mem_problems_unresolvedTarget, ← hnone]
  constructor
  case mp =>
    rintro ⟨m, hm, hid, hx⟩
    obtain rfl := ha.ids m hm n hn hid
    exact hx
  case mpr => exact fun hx => ⟨n, hn, rfl, hx⟩

-- In the tree that is built, transitions and histories lead to the states that their targets
-- address.
theorem targets_become {t : Tree} (hb : root.build machineId = .ok t) :
    (((Layout.ofState machineId root).placed n).spec.listeners (t.node n).id).Forall₂
      (fun y u => y.2.targets.Forall₂ ((Layout.ofState machineId root).Addresses n) u.targets)
      (t.node n).transitions ∧
    ((Layout.ofState machineId root).placed n).spec.targets.Forall₂
      ((Layout.ofState machineId root).Addresses n) (t.node n).defaults := by
  rw [Layout.size_ofState, ← length_listed] at hn
  have hs := List.getElem?_eq_getElem hn
  have hw := build_written hb hs
  rw [← spec_listed machineId hs] at hw
  have haddresses {x d} := (ha.target?_eq_some (n := n) (x := x) (d := d)).mp
  exact ⟨hw.transitions.imp fun _ _ hu => hu.targets.imp fun _ _ => haddresses,
    hw.defaults.imp fun _ _ => haddresses⟩

end Addressable

-- Targets address states exactly, from any state `n`: each form leads where it says, what has none
-- of the forms is reported and nothing else is, and every state below the one where a path begins
-- has one path.
theorem Addressable.addresses_exactly {l : Layout} (ha : root.Addressable machineId)
    (hl : Layout.ofState machineId root = l) (hn : n < l.size) :
    (∀ d < l.size, l.target? n ("#" ++ l.nodeId d) = some d) ∧
    (∀ path d, l.target? n ("." ++ path) = some d ↔
      n ∈ (l.placed d).ancestors ∧ path = l.keyPath n d) ∧
    (∀ path d, path.toList.head? ≠ some '#' → path.toList.head? ≠ some '.' →
      (l.target? n path = some d ↔
        l.base n ∈ (l.placed d).ancestors ∧ path = l.keyPath (l.base n) d)) ∧
    (∀ x, (∃ ps, root.build machineId = .error ps ∧ .unresolvedTarget (l.nodeId n) x ∈ ps) ↔
      x ∈ (l.placed n).spec.writtenTargets ∧ ∀ d, ¬ l.Addresses n x d) ∧
    (∀ t, root.build machineId = .ok t →
      ((l.placed n).spec.listeners (t.node n).id).Forall₂
        (fun y u => y.2.targets.Forall₂ (l.Addresses n) u.targets) (t.node n).transitions ∧
      (l.placed n).spec.targets.Forall₂ (l.Addresses n) (t.node n).defaults) ∧
    (∀ d, n ∈ (l.placed d).ancestors →
      ∃! x, x.toList.head? = some '.' ∧ l.target? n x = some d) ∧
    ∀ d, l.base n ∈ (l.placed d).ancestors →
      ∃! x, x.toList.head? ≠ some '#' ∧ x.toList.head? ≠ some '.' ∧ l.target? n x = some d := by
  subst hl
  have ord := Layout.ofState_inDocumentOrder machineId root
  exact ⟨fun d hd => ha.target?_eq_some.mpr (.id hd),
    fun _ _ => ha.keyed.target?_dot_eq_some ord,
    fun _ _ => ha.keyed.target?_of_head?_eq_some ord,
    fun _ => ha.reports_unresolvedTarget hn,
    fun _ => ha.targets_become hn,
    fun _ => ha.keyed.existsUnique_dot ord,
    fun _ => ha.keyed.existsUnique_path ord⟩

end State

end Definition

-- A lamp that does not get as bright as it is asked for.
def dimmer : Definition.State :=
  .mk { key := "m", initial := some "off" } [
    .mk {
      key := "off"
      transitions := [
        (.event "PRESS", { targets := ["on.dim"] }),
        (.event "HOLD", { targets := ["on.blinding"] })] } [],
    .mk {
      key := "on"
      initial := some "dim"
      transitions := [(.event "PRESS", { targets := [".bright"] })] } [
      .mk { key := "dim" } [],
      .mk { key := "bright", transitions := [(.event "PRESS", { targets := ["#m.off"] })] } []]]

theorem dimmer_addressable : dimmer.Addressable "m" where
  ids := by decide +kernel
  nonempty := by decide +kernel
  dotless := by decide +kernel
  hashless := by decide +kernel
  siblings := by decide +kernel

-- What begins like a path to a state need not be one.
theorem Definition.State.Addressable.addresses_exactly_dimmer :
    dimmer.Addressable "m" ∧ (Layout.ofState "m" dimmer).target? 4 "#m.off" = some 1 ∧
      (Layout.ofState "m" dimmer).target? 2 ".bright" = some 4 ∧
      (Layout.ofState "m" dimmer).target? 1 "on.dim" = some 3 ∧
      dimmer.build "m" = .error [.unresolvedTarget "m.off" "on.blinding"] ∧
      ∀ d, ¬ (Layout.ofState "m" dimmer).Addresses 1 "on.blinding" d := by
  have hoff : (Layout.ofState "m" dimmer).nodeId 1 = "m.off" := by decide +kernel
  have hb : dimmer.build "m" = .error [.unresolvedTarget "m.off" "on.blinding"] := by decide +kernel
  have hsize : (Layout.ofState "m" dimmer).size = 5 := by decide +kernel
  obtain ⟨-, -, hpath, hreport, -⟩ :=
    dimmer_addressable.addresses_exactly (n := 1) rfl (by rw [hsize]; decide)
  obtain ⟨-, hdot, -⟩ := dimmer_addressable.addresses_exactly (n := 2) rfl (by rw [hsize]; decide)
  obtain ⟨hhash, -⟩ := dimmer_addressable.addresses_exactly (n := 4) rfl (by rw [hsize]; decide)
  refine ⟨dimmer_addressable, ?_, ?_, ?_, hb, ?_⟩
  · have h := hhash 1 (by rw [hsize]; decide)
    rwa [hoff] at h
  · exact (hdot "bright" 4).mpr (by decide +kernel)
  · exact (hpath "on.dim" 3 (by decide +kernel) (by decide +kernel)).mpr (by decide +kernel)
  · exact ((hreport "on.blinding").mp ⟨_, hb, by rw [hoff]; simp⟩).right

end Statechart
