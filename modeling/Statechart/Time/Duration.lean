-- Spans of time in whole nanoseconds. A span is shorter than 2^64 seconds.

namespace Statechart

structure Duration where
  nanos : Nat
  deriving DecidableEq, Repr, Inhabited

namespace Duration

def nanosPerSecond : Nat := 1000000000

def nanosPerMilli : Nat := 1000000

def limit : Nat := UInt64.size * nanosPerSecond

def zero : Duration := ⟨0⟩

def ofNanos (n : Nat) : Duration := ⟨n⟩

def ofMillis (n : Nat) : Duration := ⟨n * nanosPerMilli⟩

def ofSeconds (seconds nanos : Nat) : Duration := ⟨seconds * nanosPerSecond + nanos⟩

-- Whole milliseconds; the rest is cut off.
def millis (d : Duration) : Nat := d.nanos / nanosPerMilli

-- The sum, unless it reaches the limit.
def add? (d e : Duration) : Option Duration :=
  if d.nanos + e.nanos < limit then some ⟨d.nanos + e.nanos⟩ else none

-- The time left from `e` until `d`, none if `e` is not before `d`.
def monus (d e : Duration) : Duration := ⟨d.nanos - e.nanos⟩

instance : LE Duration where
  le d e := d.nanos ≤ e.nanos

instance : LT Duration where
  lt d e := d.nanos < e.nanos

instance : DecidableLE Duration := fun d e => inferInstanceAs (Decidable (d.nanos ≤ e.nanos))

instance : DecidableLT Duration := fun d e => inferInstanceAs (Decidable (d.nanos < e.nanos))

end Duration

end Statechart
