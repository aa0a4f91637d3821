import Statechart.Json.Basic
import Statechart.Text.Hex

-- Reading JSON text. A document keeps what the text says before anything is made of it: fields in
-- the order written, repeated keys included, and strings whose escapes name no character as
-- `none`. Numbers that are not written as integers are `real`; so is `-0`, which has no integer.

namespace Statechart

inductive Document
  | null
  | bool (b : Bool)
  | int (n : Int)
  | real
  | str (text : Option String)
  | arr (items : List Document)
  | obj (fields : List (Option String × Document))
  deriving Inhabited

namespace Document

def isBlank (c : Char) : Bool := c = ' ' || c = '\n' || c = '\t' || c = '\r'

def skipBlanks (cs : List Char) : List Char := cs.dropWhile isBlank

def hex4? (a b c d : Char) : Option Nat := do
  let high := (← Hex.value? a) * 16 + (← Hex.value? b)
  let low := (← Hex.value? c) * 16 + (← Hex.value? d)
  pure (high * 256 + low)

def isHighSurrogate (n : Nat) : Bool := 0xD800 ≤ n && n < 0xDC00

def isLowSurrogate (n : Nat) : Bool := 0xDC00 ≤ n && n < 0xE000

def pairedChar (high low : Nat) : Char :=
  Char.ofNat (0x10000 + (high - 0xD800) * 0x400 + (low - 0xDC00))

def simpleEscape? (c : Char) : Option Char :=
  match c with
  | '"' => some '"'
  | '\\' => some '\\'
  | '/' => some '/'
  | 'b' => some '\x08'
  | 'f' => some '\x0c'
  | 'n' => some '\n'
  | 'r' => some '\r'
  | 't' => some '\t'
  | _ => none

-- A character of a string, or the code unit that an escape names.
inductive Piece
  | char (c : Char)
  | unit (n : Nat)

-- The pieces up to the closing quote, and what follows it.
def pieces? : List Char → Option (List Piece × List Char)
  | [] => none
  | c :: rest =>
    if c = '"' then some ([], rest)
    else if c = '\\' then
      match rest with
      | 'u' :: a :: b :: c :: d :: rest =>
        match hex4? a b c d with
        | none => none
        | some n => (pieces? rest).map fun (l, rest) => (.unit n :: l, rest)
      | c :: rest =>
        match simpleEscape? c with
        | none => none
        | some e => (pieces? rest).map fun (l, rest) => (.char e :: l, rest)
      | [] => none
    else if c.toNat < 0x20 then none
    else (pieces? rest).map fun (l, rest) => (.char c :: l, rest)

-- Two units that form a surrogate pair are one character; half a pair is none.
def joined? : List Piece → Option (List Char)
  | [] => some []
  | .char c :: rest => (joined? rest).map (c :: ·)
  | .unit n :: rest =>
    if isHighSurrogate n then
      match rest with
      | .unit m :: rest =>
        if isLowSurrogate m then (joined? rest).map (pairedChar n m :: ·) else none
      | _ => none
    else if isLowSurrogate n then none
    else (joined? rest).map (Char.ofNat n :: ·)

-- The text up to the closing quote and what follows it. The outer option is malformed text, the
-- inner one half of a surrogate pair.
def stringBody? (cs : List Char) : Option (Option String × List Char) :=
  (pieces? cs).map fun (l, rest) => ((joined? l).map String.ofList, rest)

def digitsValue (ds : List Char) : Nat :=
  ds.foldl (fun n c => 10 * n + (c.toNat - '0'.toNat)) 0

-- A run of digits that is not empty, and what follows.
def digits? (cs : List Char) : Option (List Char × List Char) :=
  match cs.takeWhile Char.isDigit with
  | [] => none
  | ds => some (ds, cs.dropWhile Char.isDigit)

-- A leading zero stands alone.
def integerPart? : List Char → Option (Nat × List Char)
  | '0' :: rest =>
    match rest with
    | c :: _ => if c.isDigit then none else some (0, rest)
    | [] => some (0, [])
  | cs => (digits? cs).map fun (ds, rest) => (digitsValue ds, rest)

def fraction? : List Char → Option (Bool × List Char)
  | '.' :: rest => (digits? rest).map fun (_, rest) => (true, rest)
  | cs => some (false, cs)

def exponent? : List Char → Option (Bool × List Char)
  | c :: rest =>
    if c = 'e' || c = 'E' then
      let rest := match rest with
        | '+' :: rest => rest
        | '-' :: rest => rest
        | rest => rest
      (digits? rest).map fun (_, rest) => (true, rest)
    else some (false, c :: rest)
  | [] => some (false, [])

def number? (cs : List Char) : Option (Document × List Char) := do
  let (negative, cs) := match cs with
    | '-' :: rest => (true, rest)
    | cs => (false, cs)
  let (n, cs) ← integerPart? cs
  let (hasFraction, cs) ← fraction? cs
  let (hasExponent, cs) ← exponent? cs
  if hasFraction || hasExponent || (negative && n = 0) then pure (real, cs)
  else pure (int (if negative then -n else n), cs)

-- Every call below is on shorter text or follows one that was, so twice the length of the text is
-- more than the first argument ever needs.
mutual

def value? : Nat → List Char → Option (Document × List Char)
  | 0, _ => none
  | fuel + 1, cs =>
    match skipBlanks cs with
    | 'n' :: 'u' :: 'l' :: 'l' :: rest => some (null, rest)
    | 't' :: 'r' :: 'u' :: 'e' :: rest => some (bool true, rest)
    | 'f' :: 'a' :: 'l' :: 's' :: 'e' :: rest => some (bool false, rest)
    | '"' :: rest => (stringBody? rest).map fun (text, rest) => (str text, rest)
    | '[' :: rest =>
      match skipBlanks rest with
      | ']' :: rest => some (arr [], rest)
      | rest => (items? fuel rest).map fun (l, rest) => (arr l, rest)
    | '\x7b' :: rest =>
      match skipBlanks rest with
      | '\x7d' :: rest => some (obj [], rest)
      | rest => (fields? fuel rest).map fun (l, rest) => (obj l, rest)
    | cs => number? cs

def items? : Nat → List Char → Option (List Document × List Char)
  | 0, _ => none
  | fuel + 1, cs =>
    match value? fuel cs with
    | none => none
    | some (a, rest) =>
      match skipBlanks rest with
      | ',' :: rest => (items? fuel rest).map fun (l, rest) => (a :: l, rest)
      | ']' :: rest => some ([a], rest)
      | _ => none

def fields? : Nat → List Char → Option (List (Option String × Document) × List Char)
  | 0, _ => none
  | fuel + 1, cs =>
    match skipBlanks cs with
    | '"' :: rest =>
      match stringBody? rest with
      | none => none
      | some (key, rest) =>
        match skipBlanks rest with
        | ':' :: rest =>
          match value? fuel rest with
          | none => none
          | some (a, rest) =>
            let field := (key, a)
            match skipBlanks rest with
            | ',' :: rest => (fields? fuel rest).map fun (l, rest) => (field :: l, rest)
            | '\x7d' :: rest => some ([field], rest)
            | _ => none
        | _ => none
    | _ => none

end

def ofChars? (cs : List Char) : Option Document :=
  match value? (2 * cs.length + 2) cs with
  | some (d, rest) => if (skipBlanks rest).isEmpty then some d else none
  | none => none

def parse? (s : String) : Option Document := ofChars? s.toList

mutual

-- How many arrays and objects stand inside one another.
def nesting : Document → Nat
  | arr items => nestingItems items + 1
  | obj fields => nestingFields fields + 1
  | _ => 0

def nestingItems : List Document → Nat
  | [] => 0
  | a :: rest => max a.nesting (nestingItems rest)

def nestingFields : List (Option String × Document) → Nat
  | [] => 0
  | (_, a) :: rest => max a.nesting (nestingFields rest)

end

def minInt : Int := -9223372036854775808

mutual

-- The payload a document stands for. Of repeated keys the last one counts; an integer has to fit
-- into 64 bits, with or without a sign.
def toJson? : Document → Option Json
  | null => some .null
  | bool b => some (.bool b)
  | int n => if minInt ≤ n ∧ n < UInt64.size then some (.int n) else none
  | real => none
  | str text => text.map .str
  | arr items => (itemsToJson? items).map .arr
  | obj fields => (fieldsToJson? fields).map .object

def itemsToJson? : List Document → Option (List Json)
  | [] => some []
  | a :: rest =>
    match a.toJson?, itemsToJson? rest with
    | some a, some l => some (a :: l)
    | _, _ => none

def fieldsToJson? : List (Option String × Document) → Option (List (String × Json))
  | [] => some []
  | (key, a) :: rest =>
    match key, a.toJson?, fieldsToJson? rest with
    | some key, some a, some l => some ((key, a) :: l)
    | _, _, _ => none

end

-- Values may be nested this deep, counted from the outermost bracket of the text.
def maxNesting : Nat := 127

def payload? (level : Nat) (d : Document) : Option Json :=
  if level + d.nesting ≤ maxNesting then d.toJson? else none

def string? : Document → Option String
  | str text => text
  | _ => none

def bool? : Document → Option Bool
  | bool b => some b
  | _ => none

def natBelow? (bound : Nat) : Document → Option Nat
  | int (.ofNat n) => if n < bound then some n else none
  | _ => none

def intWithin? (low high : Int) : Document → Option Int
  | int n => if low ≤ n ∧ n < high then some n else none
  | _ => none

def list? (f : Document → Option α) : Document → Option (List α)
  | arr items => items.mapM f
  | _ => none

-- The entries of a map; a repeated key keeps the place in the list it was written at.
def entries? (f : Document → Option α) : Document → Option (List (String × α))
  | obj fields => fields.mapM fun (key, a) => do pure (← key, ← f a)
  | _ => none

-- One of several names, alone or as the only key of an object that holds `null`.
def variant? (names : List String) (d : Document) : Option String :=
  let named (s : String) := if s ∈ names then some s else none
  match d with
  | str (some s) => named s
  | obj [(some s, null)] => named s
  | _ => none

-- A record with the given fields, written as an object or as an array in field order. The answer
-- has one place for each name. Unknown keys are passed over; a repeated known key, a key that is no
-- string of characters, and an array that is too long are malformed.
def record? (names : List String) : Document → Option (List (Option Document))
  | arr items =>
    if items.length ≤ names.length then
      some (items.map some ++ List.replicate (names.length - items.length) none)
    else none
  | obj fields =>
    if fields.any (·.1.isNone) then none
    else names.mapM fun name =>
      match fields.filter (·.1 = some name) with
      | [] => some none
      | [(_, a)] => some (some a)
      | _ => none
  | _ => none

end Document

-- The payload written in `s`.
def Json.parse? (s : String) : Option Json := Document.parse? s |>.bind (Document.payload? 0)

end Statechart
