-- Finite sets as strictly increasing lists: equal sets are equal values, and every traversal
-- meets the members in order.

namespace Statechart

variable {α : Type} [LT α]

def insertMember [DecidableLT α] (a : α) : List α → List α
  | [] => [a]
  | b :: rest =>
    if a < b then a :: b :: rest
    else if b < a then b :: insertMember a rest
    else b :: rest

structure SortedSet (α : Type) [LT α] where
  toList : List α
  increasing : toList.Pairwise (· < ·)

namespace SortedSet

instance : Membership α (SortedSet α) where
  mem s a := a ∈ s.toList

theorem mem_iff {s : SortedSet α} {a : α} : a ∈ s ↔ a ∈ s.toList := .rfl

instance [DecidableEq α] (s : SortedSet α) (a : α) : Decidable (a ∈ s) :=
  inferInstanceAs (Decidable (a ∈ s.toList))

instance [DecidableEq α] : DecidableEq (SortedSet α) := fun s t =>
  if h : s.toList = t.toList then isTrue (by cases s; cases t; simp_all)
  else isFalse (fun e => h (e ▸ rfl))

def empty : SortedSet α := ⟨[], .nil⟩

instance : EmptyCollection (SortedSet α) := ⟨empty⟩
instance : Inhabited (SortedSet α) := ⟨∅⟩

def isEmpty (s : SortedSet α) : Bool := s.toList.isEmpty

def size (s : SortedSet α) : Nat := s.toList.length

def contains [DecidableEq α] (s : SortedSet α) (a : α) : Bool := decide (a ∈ s)

def filter (p : α → Bool) (s : SortedSet α) : SortedSet α where
  toList := s.toList.filter p
  increasing := s.increasing.filter p

@[simp] theorem mem_empty {a : α} : ¬ a ∈ (∅ : SortedSet α) := List.not_mem_nil

@[simp] theorem contains_iff [DecidableEq α] {s : SortedSet α} {a : α} :
    s.contains a = true ↔ a ∈ s := by
  simp [contains]

@[simp] theorem contains_eq_false_iff [DecidableEq α] {s : SortedSet α} {a : α} :
    s.contains a = false ↔ a ∉ s := by
  simp [contains]

@[simp] theorem mem_filter {p : α → Bool} {s : SortedSet α} {a : α} :
    a ∈ s.filter p ↔ a ∈ s ∧ p a = true :=
  List.mem_filter

variable [LE α] [Std.IsLinearOrder α] [Std.LawfulOrderLT α]

section Insertion

variable [DecidableLT α]

theorem mem_insertMember {a b : α} {l : List α} : b ∈ insertMember a l ↔ b = a ∨ b ∈ l := by
  induction l with
  | nil => simp [insertMember]
  | cons c rest ih =>
    simp only [insertMember]
    split
    · simp
    · split
      · simp [ih, or_left_comm]
      · have : a = c := by rcases Std.lt_trichotomy a c with h | h | h <;> simp_all
        simp [this]

theorem increasing_insertMember {a : α} {l : List α} (h : l.Pairwise (· < ·)) :
    (insertMember a l).Pairwise (· < ·) := by
  induction l with
  | nil => simp [insertMember]
  | cons c rest ih =>
    have ⟨hc, hr⟩ := List.pairwise_cons.mp h
    simp only [insertMember]
    split
    case isTrue hac =>
      refine List.pairwise_cons.mpr ⟨fun b hb => ?_, h⟩
      cases (List.mem_cons.mp hb)
      case inl h =>
        subst h
        exact hac
      case inr hb => exact Std.lt_trans hac (hc b hb)
    case isFalse =>
      split
      case isTrue hca =>
        refine List.pairwise_cons.mpr ⟨fun b hb => ?_, ih hr⟩
        cases (mem_insertMember.mp hb)
        case inl h =>
          subst h
          exact hca
        case inr hb => exact hc b hb
      case isFalse => exact h

def insert (s : SortedSet α) (a : α) : SortedSet α where
  toList := insertMember a s.toList
  increasing := increasing_insertMember s.increasing

@[simp] theorem mem_insert {s : SortedSet α} {a b : α} : b ∈ s.insert a ↔ b = a ∨ b ∈ s :=
  mem_insertMember

def insertAll (s : SortedSet α) (l : List α) : SortedSet α := l.foldl insert s

@[simp] theorem mem_insertAll {s : SortedSet α} {l : List α} {a : α} :
    a ∈ s.insertAll l ↔ a ∈ s ∨ a ∈ l := by
  induction l generalizing s with
  | nil => simp [insertAll]
  | cons b rest ih =>
    rw [insertAll, List.foldl_cons, ← insertAll, ih]
    simp [or_assoc, or_comm, or_left_comm]

def ofList (l : List α) : SortedSet α := (∅ : SortedSet α).insertAll l

@[simp] theorem mem_ofList {l : List α} {a : α} : a ∈ ofList l ↔ a ∈ l := by simp [ofList]

end Insertion

-- A set is determined by its members.
@[ext] theorem ext {s t : SortedSet α} (h : ∀ a, a ∈ s ↔ a ∈ t) : s = t := by
  obtain ⟨l, hl⟩ := s
  obtain ⟨m, hm⟩ := t
  suffices l = m by simp [this]
  simp only [mem_iff] at h
  induction l generalizing m with
  | nil =>
    cases m with
    | nil => rfl
    | cons b _ => exact absurd ((h b).mpr (by simp)) (by simp)
  | cons a l ih =>
    cases m with
    | nil => exact absurd ((h a).mp (by simp)) (by simp)
    | cons b m =>
      have ⟨ha, hl'⟩ := List.pairwise_cons.mp hl
      have ⟨hb, hm'⟩ := List.pairwise_cons.mp hm
      have e : a = b := by
        rcases List.mem_cons.mp ((h a).mp (by simp)) with e | hab
        · exact e
        cases (List.mem_cons.mp ((h b).mpr (by simp)))
        case inl e => exact e.symm
        case inr hba => exact absurd (Std.lt_trans (ha b hba) (hb a hab)) Std.lt_irrefl
      subst e
      refine congrArg _ (ih hl' m hm' fun c => ⟨fun hc => ?_, fun hc => ?_⟩)
      · cases (List.mem_cons.mp ((h c).mp (by simp [hc])))
        case inl h =>
          subst h
          exact absurd (ha c hc) Std.lt_irrefl
        case inr hc' => exact hc'
      · cases (List.mem_cons.mp ((h c).mpr (by simp [hc])))
        case inl h =>
          subst h
          exact absurd (hb c hc) Std.lt_irrefl
        case inr hc' => exact hc'

@[simp] theorem isEmpty_iff {s : SortedSet α} : s.isEmpty = true ↔ s = ∅ := by
  rw [isEmpty, List.isEmpty_iff]
  exact ⟨fun h => ext fun a => by rw [mem_iff, h]; exact .rfl, fun h => h ▸ rfl⟩

end SortedSet

end Statechart
