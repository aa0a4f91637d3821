import Statechart.Time.Duration

-- A clock that only moves when it is told to. It counts nanoseconds in 64 bits and stays at its
-- last instant instead of going beyond it.

namespace Statechart

structure Clock where
  now : Duration
  deriving DecidableEq, Repr, Inhabited

namespace Clock

def last : Nat := UInt64.size - 1

def start : Clock := ⟨.zero⟩

def advance (c : Clock) (d : Duration) : Clock := ⟨⟨min (c.now.nanos + d.nanos) last⟩⟩

def set (_ : Clock) (now : Duration) : Clock := ⟨⟨min now.nanos last⟩⟩

end Clock

end Statechart
