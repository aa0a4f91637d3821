import Statechart.Time.Timestamp

-- Reading timestamps. What is written with an offset from universal time is converted. More is
-- accepted than is ever written: blanks around numbers, fewer digits, further digits of a fraction,
-- and other ways to state the offset.

namespace Statechart.Timestamp

-- A reader takes what it needs from the front of the text.
abbrev Reader := StateT (List Char) Option

def isBlank (c : Char) : Bool :=
  ('\t' ≤ c && c ≤ '\r') || c = ' ' || c = '\u0085' || c = '\u00a0' || c = '\u1680' ||
    ('\u2000' ≤ c && c ≤ '\u200a') || c = '\u2028' || c = '\u2029' || c = '\u202f' ||
    c = '\u205f' || c = '\u3000'

def malformed : Reader α := fun _ => none

def skipWhile (p : Char → Bool) : Reader Unit := fun cs => some ((), cs.dropWhile p)

def skipBlanks : Reader Unit := skipWhile isBlank

def peek? : Reader (Option Char) := fun cs => some (cs.head?, cs)

def next : Reader Char := fun
  | [] => none
  | c :: rest => some (c, rest)

def literal (c : Char) : Reader Unit := do
  if (← next) = c then pure () else malformed

def value (ds : List Char) : Nat := ds.foldl (fun n c => 10 * n + (c.toNat - '0'.toNat)) 0

def digitsAtMost (width : Nat) : Reader (List Char) := fun cs =>
  match (cs.take width).takeWhile Char.isDigit with
  | [] => none
  | ds => some (ds, cs.drop ds.length)

-- At least one digit and at most `width` of them, after blanks.
def number (width : Nat) : Reader Nat := do
  skipBlanks
  pure (value (← digitsAtMost width))

def allDigits : Reader Nat := do
  let ds : List Char := (← get).takeWhile Char.isDigit
  if ds.isEmpty then malformed
  else
    modify (·.drop ds.length)
    pure (value ds)

-- A year with a sign has any number of digits.
def year : Reader Int := do
  skipBlanks
  match ← peek? with
  | some '-' => do
    let _ ← next
    pure (-(← allDigits))
  | some '+' => do
    let _ ← next
    pure (← allDigits)
  | _ => do
    pure (value (← digitsAtMost 4))

def dateReader : Reader Date := do
  let y ← year
  skipBlanks
  literal '-'
  let m ← number 2
  skipBlanks
  literal '-'
  let d ← number 2
  match Date.of? y m d with
  | some date => pure date
  | none => malformed

-- Nine places count.
def fraction : Reader Nat := do
  match ← peek? with
  | some '.' => do
    let _ ← next
    let ds ← digitsAtMost 9
    skipWhile Char.isDigit
    pure (value (ds ++ List.replicate (9 - ds.length) '0'))
  | _ => pure 0

def digit : Reader Nat := do
  let c ← next
  if c.isDigit then pure (value [c]) else malformed

-- East of universal time, in minutes.
def offset : Reader Int := do
  let cs : List Char ← get
  if (cs.take 3).map Char.toUpper = ['U', 'T', 'C'] then
    modify (·.drop 3)
    pure 0
  else
    let sign ← next
    if sign = 'Z' ∨ sign = 'z' then pure 0
    else if sign = '+' ∨ sign = '-' ∨ sign = '\u2212' then
      let hours := 10 * (← digit) + (← digit)
      skipWhile fun c => c = ':' || isBlank c
      let minutes := 10 * (← digit) + (← digit)
      if 60 ≤ minutes ∨ 24 ≤ hours then malformed
      else
        let n : Int := hours * 60 + minutes
        pure (if sign = '+' then n else -n)
    else malformed

-- A time of day that begins a given number of minutes before or after the day.
def ofMinutes? (date : Date) (minutes : Int) (second nanos : Nat) : Option Timestamp := do
  let (date, minutes) ←
    if minutes < 0 then date.previous?.map (·, minutes + 1440)
    else if 1440 ≤ minutes then date.next?.map (·, minutes - 1440)
    else some (date, minutes)
  if h : minutes.toNat < 1440 ∧ second ≤ 60 ∧ nanos < Duration.nanosPerSecond then
    some ⟨date, minutes.toNat, second, nanos, h.1, h.2.1, h.2.2⟩
  else none

def reader : Reader Timestamp := do
  let date ← dateReader
  let separator ← next
  if separator ≠ 'T' ∧ separator ≠ 't' ∧ separator ≠ ' ' then malformed
  let hour ← number 2
  skipBlanks
  literal ':'
  let minute ← number 2
  skipBlanks
  literal ':'
  let second ← number 2
  let nanos ← fraction
  skipBlanks
  let east ← offset
  skipBlanks
  if 24 ≤ hour ∨ 60 ≤ minute then malformed
  match ofMinutes? date ((hour * 60 + minute : Nat) - east) second nanos with
  | some t => pure t
  | none => malformed

def parse? (s : String) : Option Timestamp :=
  match reader s.toList with
  | some (t, []) => some t
  | _ => none

end Statechart.Timestamp
