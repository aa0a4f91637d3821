import Mathlib.Data.List.Basic

-- What it means that a reader takes back what was written, how this is put together, and decimal
-- digits, which several readers have in common.

namespace Statechart

variable {τ α β : Type} {P Q : List τ → Prop} {f : StateT (List τ) Option α}
  {g : α → StateT (List τ) Option β} {l l' : List τ} {a : α} {b : β}

theorem bind_eq_of_eq_some (h : f l = some (a, l')) : (f >>= g) l = g a l' := by
  change (f l).bind (fun r => g r.1 r.2) = _
  rw [h, Option.bind_some]

-- `f` takes `l` from the front and makes `a` of it, provided that `P` holds of what follows.
def Reads (P : List τ → Prop) (f : StateT (List τ) Option α) (l : List τ) (a : α) : Prop :=
  ∀ rest, P rest → f (l ++ rest) = some (a, rest)

-- Whatever follows.
def Anything (_ : List τ) : Prop := True

namespace Reads

theorem pure (a : α) : Reads P (pure a) [] a := fun _ _ => rfl

theorem mono (h : Reads P f l a) (hqp : ∀ rest, Q rest → P rest) : Reads Q f l a :=
  fun rest hq => h rest (hqp rest hq)

theorem bind (h : Reads P f l a) (h' : Reads Q (g a) l' b) (hpq : ∀ rest, Q rest → P (l' ++ rest)) :
    Reads Q (f >>= g) (l ++ l') b := by
  intro rest hq
  rw [List.append_assoc, bind_eq_of_eq_some (h (l' ++ rest) (hpq rest hq))]
  exact h' rest hq

theorem seq (h : Reads Anything f l a) (h' : Reads Q (g a) l' b) : Reads Q (f >>= g) (l ++ l') b :=
  h.bind h' fun _ _ => trivial

-- Nothing more is taken.
theorem last (h : Reads P f l a) (h' : Reads P (g a) [] b) : Reads P (f >>= g) l b := by
  have hall := h.bind h' fun _ hp => hp
  rwa [List.append_nil] at hall

-- Nothing is taken before.
theorem first (h : Reads Anything f [] a) (h' : Reads Q (g a) l' b) : Reads Q (f >>= g) l' b :=
  h.seq h'

end Reads

namespace Decimal

variable {ds rest : List Char} {n : Nat}

-- What follows is no digit.
def Ends (rest : List Char) : Prop := ∀ c ∈ rest.head?, c.isDigit = false

theorem takeWhile_digits (hd : ∀ c ∈ ds, c.isDigit = true) (hr : Ends rest) :
    (ds ++ rest).takeWhile Char.isDigit = ds ∧ (ds ++ rest).dropWhile Char.isDigit = rest := by
  rw [List.takeWhile_append_of_pos hd, List.dropWhile_append_of_pos hd]
  cases rest with
  | nil => simp
  | cons c rest =>
    have hc : c.isDigit = false := hr c rfl
    simp [hc]

theorem toDigits_isDigit (n : Nat) : ∀ c ∈ Nat.toDigits 10 n, c.isDigit = true :=
  fun _ => Nat.isDigit_of_mem_toDigits (by decide) (by decide)

theorem exists_digit (n : Nat) : ∃ d ds, Nat.toDigits 10 n = d :: ds ∧ d.isDigit = true := by
  cases hds : Nat.toDigits 10 n with
  | nil => exact absurd hds Nat.toDigits_ne_nil
  | cons d ds => exact ⟨d, ds, rfl, toDigits_isDigit n d (hds ▸ List.mem_cons_self)⟩

-- A number is written without leading zeros.
theorem exists_toDigits (hn : 0 < n) : ∃ d ds, Nat.toDigits 10 n = d :: ds ∧ d ≠ '0' := by
  induction n using Nat.strongRecOn with
  | ind n ih =>
    rw [Nat.toDigits_eq_if (by decide)]
    split
    case isTrue hlt =>
      refine ⟨n.digitChar, [], rfl, ?_⟩
      have hall : ∀ k < 10, 0 < k → k.digitChar ≠ '0' := by decide
      exact hall n hlt hn
    case isFalse hge =>
      obtain ⟨d, ds, hds, hd⟩ := ih (n / 10) (by omega) (by omega)
      exact ⟨d, ds ++ [(n % 10).digitChar], by rw [hds, List.cons_append], hd⟩

end Decimal

end Statechart
