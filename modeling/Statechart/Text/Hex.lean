-- Hexadecimal digits. They are written in lower case and read in either.

namespace Statechart.Hex

-- The digit of a number below sixteen.
def digit (n : Nat) : Char := Nat.digitChar n

def value? (c : Char) : Option Nat :=
  if '0' ≤ c ∧ c ≤ '9' then some (c.toNat - '0'.toNat)
  else if 'a' ≤ c ∧ c ≤ 'f' then some (c.toNat - 'a'.toNat + 10)
  else if 'A' ≤ c ∧ c ≤ 'F' then some (c.toNat - 'A'.toNat + 10)
  else none

def ofByte (b : UInt8) : List Char := [digit (b.toNat / 16), digit (b.toNat % 16)]

def ofBytes (bs : List UInt8) : List Char := bs.flatMap ofByte

-- Two digits make a byte.
def bytes? : List Char → Option (List UInt8)
  | [] => some []
  | [_] => none
  | high :: low :: rest => do
    pure (.ofNat ((← value? high) * 16 + (← value? low)) :: (← bytes? rest))

theorem value?_digit : ∀ n < 16, value? (digit n) = some n := by decide

theorem bytes?_ofBytes (bs : List UInt8) : bytes? (ofBytes bs) = some bs := by
  induction bs with
  | nil => rfl
  | cons b bs ih =>
    have hb : b.toNat < 256 := b.toNat_lt
    have h : bytes? (ofByte b ++ ofBytes bs) = some (b :: bs) := by
      simp only [ofByte, List.cons_append, List.nil_append, bytes?]
      rw [value?_digit _ (by omega), value?_digit _ (by omega), ih]
      simp only [Option.bind_eq_bind, Option.bind_some, Option.pure_def]
      rw [show b.toNat / 16 * 16 + b.toNat % 16 = b.toNat by omega]
      simp
    exact h

end Statechart.Hex
