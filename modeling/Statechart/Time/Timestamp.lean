import Statechart.Time.Date
import Statechart.Time.Duration

-- Instants in universal time as calendar date and time of day. A minute has a sixtieth second when
-- a leap second is inserted.

namespace Statechart

structure Timestamp where
  date : Date
  -- of the day
  minutes : Nat
  second : Nat
  nanos : Nat
  minutes_lt : minutes < 1440
  second_le : second ≤ 60
  nanos_lt : nanos < Duration.nanosPerSecond
  deriving DecidableEq

namespace Timestamp

-- Decimal digits, with zeros in front up to the given width.
def padded (width n : Nat) : List Char :=
  let ds := Nat.toDigits 10 n
  List.replicate (width - ds.length) '0' ++ ds

-- Years outside the first ten thousand have a sign.
def yearChars (year : Int) : List Char :=
  if 0 ≤ year ∧ year ≤ 9999 then padded 4 year.toNat
  else (if year < 0 then '-' else '+') :: padded 4 year.natAbs

-- The shortest of no, three, six and nine places that is exact.
def fractionChars (nanos : Nat) : List Char :=
  if nanos = 0 then []
  else if nanos % 1000000 = 0 then '.' :: padded 3 (nanos / 1000000)
  else if nanos % 1000 = 0 then '.' :: padded 6 (nanos / 1000)
  else '.' :: padded 9 nanos

def chars (t : Timestamp) : List Char :=
  yearChars t.date.year ++ '-' :: padded 2 t.date.month ++ '-' :: padded 2 t.date.day ++
    'T' :: padded 2 (t.minutes / 60) ++ ':' :: padded 2 (t.minutes % 60) ++
    ':' :: padded 2 t.second ++ fractionChars t.nanos ++ ['Z']

def text (t : Timestamp) : String := String.ofList t.chars

end Timestamp

end Statechart
