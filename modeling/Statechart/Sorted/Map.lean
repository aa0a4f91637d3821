-- Finite maps as entry lists with strictly increasing keys. A later entry for a key replaces the
-- earlier one, and traversals go in key order.

namespace Statechart

variable {κ β : Type} [LT κ]

def insertEntry [DecidableLT κ] (k : κ) (v : β) : List (κ × β) → List (κ × β)
  | [] => [(k, v)]
  | e :: rest =>
    if k < e.1 then (k, v) :: e :: rest
    else if e.1 < k then e :: insertEntry k v rest
    else (k, v) :: rest

structure SortedMap (κ β : Type) [LT κ] where
  entries : List (κ × β)
  increasing : entries.Pairwise (·.1 < ·.1)

namespace SortedMap

instance [DecidableEq κ] [DecidableEq β] : DecidableEq (SortedMap κ β) := fun m n =>
  if h : m.entries = n.entries then isTrue (by cases m; cases n; simp_all)
  else isFalse (fun e => h (e ▸ rfl))

def empty : SortedMap κ β := ⟨[], .nil⟩

instance : EmptyCollection (SortedMap κ β) := ⟨empty⟩
instance : Inhabited (SortedMap κ β) := ⟨∅⟩

def isEmpty (m : SortedMap κ β) : Bool := m.entries.isEmpty

def keys (m : SortedMap κ β) : List κ := m.entries.map (·.1)

def find? [DecidableEq κ] (m : SortedMap κ β) (k : κ) : Option β :=
  (m.entries.find? (·.1 = k)).map (·.2)

section Insertion

variable [DecidableLT κ]

theorem mem_insertEntry {k : κ} {v : β} {e : κ × β} {l : List (κ × β)}
    (h : e ∈ insertEntry k v l) : e = (k, v) ∨ e ∈ l := by
  induction l with
  | nil => simpa [insertEntry] using h
  | cons a rest ih =>
    simp only [insertEntry] at h
    split at h
    · simpa using h
    · split at h
      · cases (List.mem_cons.mp h)
        case inl h =>
          subst h
          simp
        case inr h => exact (ih h).imp id (List.mem_cons_of_mem _)
      · exact (List.mem_cons.mp h).imp id (List.mem_cons_of_mem _)

variable [LE κ] [Std.IsLinearOrder κ] [Std.LawfulOrderLT κ]

theorem increasing_insertEntry {k : κ} {v : β} {l : List (κ × β)}
    (h : l.Pairwise (·.1 < ·.1)) : (insertEntry k v l).Pairwise (·.1 < ·.1) := by
  induction l with
  | nil => simp [insertEntry]
  | cons a rest ih =>
    have ⟨ha, hr⟩ := List.pairwise_cons.mp h
    simp only [insertEntry]
    split
    case isTrue hk =>
      refine List.pairwise_cons.mpr ⟨fun e he => ?_, h⟩
      cases (List.mem_cons.mp he)
      case inl h =>
        subst h
        exact hk
      case inr he => exact Std.lt_trans hk (ha e he)
    case isFalse hk =>
      split
      case isTrue hk' =>
        refine List.pairwise_cons.mpr ⟨fun e he => ?_, ih hr⟩
        cases (mem_insertEntry he)
        case inl h =>
          subst h
          exact hk'
        case inr he => exact ha e he
      case isFalse hk' =>
        have e : k = a.1 := by rcases Std.lt_trichotomy k a.1 with h | h | h <;> simp_all
        exact List.pairwise_cons.mpr ⟨fun b hb => by simpa [e] using ha b hb, hr⟩

def insert (m : SortedMap κ β) (k : κ) (v : β) : SortedMap κ β where
  entries := insertEntry k v m.entries
  increasing := increasing_insertEntry m.increasing

theorem find?_insertEntry [DecidableEq κ] {k j : κ} {v : β} (l : List (κ × β)) :
    (insertEntry k v l).find? (·.1 = j) = if j = k then some (k, v) else l.find? (·.1 = j) := by
  induction l with
  | nil => by_cases h : k = j <;> simp [insertEntry, h, eq_comm (a := j)]
  | cons e rest ih =>
    simp only [insertEntry]
    split
    case isTrue =>
      by_cases h : k = j <;> simp [h, eq_comm (a := j)]
    case isFalse hk =>
      split
      case isTrue hek =>
        have hne : e.1 ≠ k := fun h => Std.lt_irrefl (h ▸ hek)
        by_cases h : e.1 = j
        · simp [h, h ▸ hne]
        · simp [h, ih]
      case isFalse hek =>
        have he : e.1 = k := by rcases Std.lt_trichotomy e.1 k with h | h | h <;> simp_all
        by_cases h : k = j <;> simp [he, h, eq_comm (a := j)]

@[simp] theorem find?_insert [DecidableEq κ] {m : SortedMap κ β} {k j : κ} {v : β} :
    (m.insert k v).find? j = if j = k then some v else m.find? j := by
  rw [find?, insert, find?_insertEntry, find?]
  split <;> rfl

def ofList (l : List (κ × β)) : SortedMap κ β := l.foldl (fun m e => m.insert e.1 e.2) ∅

-- A key after all others comes last.
theorem insertEntry_of_last {k : κ} {v : β} {l : List (κ × β)} (h : ∀ e ∈ l, e.1 < k) :
    insertEntry k v l = l ++ [(k, v)] := by
  induction l with
  | nil => rfl
  | cons e rest ih =>
    have ⟨he, hr⟩ := List.forall_mem_cons.mp h
    simp only [insertEntry, if_neg fun h => Std.lt_irrefl (Std.lt_trans he h), if_pos he, ih hr,
      List.cons_append]

theorem ofList_entries (m : SortedMap κ β) : ofList m.entries = m := by
  have hfold (l : List (κ × β)) (n : SortedMap κ β)
      (h : (n.entries ++ l).Pairwise (·.1 < ·.1)) :
      (l.foldl (fun m e => m.insert e.1 e.2) n).entries = n.entries ++ l := by
    induction l generalizing n with
    | nil => simp
    | cons e rest ih =>
      have hlast : ∀ e' ∈ n.entries, e'.1 < e.1 := fun e' he' =>
        (List.pairwise_append.mp h).right.right e' he' e List.mem_cons_self
      have hn : (n.insert e.1 e.2).entries = n.entries ++ [e] := insertEntry_of_last hlast
      rw [List.foldl_cons, ih _ (by simpa [hn] using h), hn]
      simp
  have he : (ofList m.entries).entries = m.entries := hfold m.entries ∅ m.increasing
  generalize ofList m.entries = n at he
  cases m
  cases n
  cases he
  rfl

end Insertion

section Extensionality

variable [LE κ] [Std.LawfulOrderLT κ] [DecidableEq κ] {m n : SortedMap κ β}

theorem find?_eq_some {k : κ} {v : β} : m.find? k = some v ↔ (k, v) ∈ m.entries := by
  rw [find?, Option.map_eq_some_iff]
  constructor
  case mp =>
    intro ⟨e, he, hv⟩
    have hk : e.1 = k := by simpa using List.find?_some he
    exact hk ▸ hv ▸ List.mem_of_find?_eq_some he
  case mpr =>
    intro h
    have ⟨before, after, hl⟩ := List.append_of_mem h
    have ho := m.increasing
    rw [hl] at ho
    refine ⟨(k, v), List.find?_eq_some_iff_append.mpr ⟨by simp, before, after, hl, fun e he => ?_⟩,
      rfl⟩
    have hlt := (List.pairwise_append.mp ho).right.right e he (k, v) (by simp)
    simpa using fun h : e.1 = k => Std.lt_irrefl (h ▸ hlt)

-- A map is determined by what it finds.
theorem ext_find? [Std.IsLinearOrder κ] (h : ∀ k, m.find? k = n.find? k) : m = n := by
  have hd (m : SortedMap κ β) : m.entries.Nodup :=
    m.increasing.imp fun {a b} hlt (he : a = b) => Std.lt_irrefl (he ▸ hlt)
  have hp : m.entries.Perm n.entries := by
    refine (List.perm_ext_iff_of_nodup (hd m) (hd n)).mpr fun e => ?_
    rw [← find?_eq_some (k := e.1) (v := e.2), h, find?_eq_some]
  have he : m.entries = n.entries := by
    refine hp.eq_of_pairwise (fun a b _ _ hab hba => ?_) m.increasing n.increasing
    exact absurd (Std.lt_trans hab hba) Std.lt_irrefl
  cases m
  cases n
  cases he
  rfl

end Extensionality

end SortedMap

end Statechart
