import Statechart.Sorted.Map

-- The binary form of data: numbers of fixed width with the least significant byte first, and texts,
-- lists and maps after their sizes. A reader takes what it needs from the front.

namespace Statechart.Binary

abbrev Bytes := List UInt8

abbrev Reader := StateT Bytes Option

def malformed : Reader α := fun _ => none

def writeNat : Nat → Nat → Bytes
  | 0, _ => []
  | width + 1, n => UInt8.ofNat n :: writeNat width (n / 256)

def readByte : Reader UInt8 := fun
  | [] => none
  | b :: rest => some (b, rest)

def readNat : Nat → Reader Nat
  | 0 => pure 0
  | width + 1 => do
    let b ← readByte
    let n ← readNat width
    pure (b.toNat + 256 * n)

def readBytes (n : Nat) : Reader Bytes := fun bs =>
  if n ≤ bs.length then some (bs.take n, bs.drop n) else none

-- The width of sizes in bytes.
def sizeWidth : Nat := 8

def writeSize (n : Nat) : Bytes := writeNat sizeWidth n

def readSize : Reader Nat := readNat sizeWidth

def writeUInt32 (n : UInt32) : Bytes := writeNat 4 n.toNat

def readUInt32 : Reader UInt32 := do
  pure (.ofNat (← readNat 4))

def writeInt64 (n : Int64) : Bytes := writeNat 8 n.toUInt64.toNat

def readInt64 : Reader Int64 := do
  pure (UInt64.ofNat (← readNat 8)).toInt64

def writeBool (b : Bool) : Bytes := [if b then 1 else 0]

def readBool : Reader Bool := do
  let b ← readByte
  if b = 0 then pure false else if b = 1 then pure true else malformed

def writeBlob (bs : Bytes) : Bytes := writeSize bs.length ++ bs

def readBlob : Reader Bytes := do readBytes (← readSize)

def writeString (s : String) : Bytes := writeBlob s.toUTF8.toList

def readString : Reader String := do
  let bs ← readBlob
  match String.fromUTF8? ⟨bs.toArray⟩ with
  | some s => pure s
  | none => malformed

def writeList (f : α → Bytes) (l : List α) : Bytes := writeSize l.length ++ l.flatMap f

def readItems (f : Reader α) : Nat → Reader (List α)
  | 0 => pure []
  | n + 1 => do
    let a ← f
    let l ← readItems f n
    pure (a :: l)

def readList (f : Reader α) : Reader (List α) := do readItems f (← readSize)

-- The entries of a map in key order.
def writeMap (f : α → Bytes) (m : SortedMap String α) : Bytes :=
  writeList (fun e => writeString e.1 ++ f e.2) m.entries

def readEntry (f : Reader α) : Reader (String × α) := do
  let key ← readString
  let a ← f
  pure (key, a)

-- Entries may come in any order; of repeated keys the last one counts.
def readMap (f : Reader α) : Reader (SortedMap String α) := do
  pure (.ofList (← readList (readEntry f)))

-- How many numbers there are of a width.
def capacity : Nat → Nat
  | 0 => 1
  | width + 1 => 256 * capacity width

theorem readNat_cons (width : Nat) (b : UInt8) (bs : Bytes) :
    readNat (width + 1) (b :: bs) = (readNat width bs).map fun r => (b.toNat + 256 * r.1, r.2) := by
  show (readNat width bs).bind (fun r => some (b.toNat + 256 * r.1, r.2)) = _
  cases readNat width bs <;> rfl

theorem readNat_writeNat (width n : Nat) (rest : Bytes) (h : n < capacity width) :
    readNat width (writeNat width n ++ rest) = some (n, rest) := by
  induction width generalizing n with
  | zero =>
    have hn : n = 0 := by simp only [capacity] at h; omega
    subst hn
    rfl
  | succ width ih =>
    have hd : n / 256 < capacity width := by simp only [capacity] at h; omega
    have hb : (UInt8.ofNat n).toNat + 256 * (n / 256) = n := by simp; omega
    simp only [writeNat, List.cons_append, readNat_cons, ih _ hd, Option.map_some, hb]

end Statechart.Binary
