import Statechart.Text.Hex

-- Identifiers of 128 bits, written in hexadecimal.

namespace Statechart

structure Uuid where
  bytes : List UInt8
  length_eq : bytes.length = 16
  deriving DecidableEq

namespace Uuid

def ofBytes? (bs : List UInt8) : Option Uuid :=
  if h : bs.length = 16 then some ⟨bs, h⟩ else none

-- How many digits stand between the hyphens.
def groups : List Nat := [8, 4, 4, 4, 12]

def hyphenated : List Nat → List Char → List Char
  | [], _ => []
  | [n], cs => cs.take n
  | n :: more, cs => cs.take n ++ '-' :: hyphenated more (cs.drop n)

def withoutHyphens? : List Nat → List Char → Option (List Char)
  | [], cs => if cs.isEmpty then some [] else none
  | [n], cs => if cs.length = n then some cs else none
  | n :: more, cs =>
    match cs.drop n with
    | '-' :: rest => (withoutHyphens? more rest).map (cs.take n ++ ·)
    | _ => none

def text (u : Uuid) : String := String.ofList (hyphenated groups (Hex.ofBytes u.bytes))

def scheme : List Char := "urn:uuid:".toList

-- The digits in one of the written forms: with or without hyphens, and with hyphens also between
-- braces or after the scheme, which is read in either case.
def digits? (cs : List Char) : Option (List Char) :=
  if cs.length = 32 then some cs
  else if cs.length = 38 then
    if cs.head? = some '\x7b' ∧ cs.getLast? = some '\x7d' then
      withoutHyphens? groups (cs.drop 1).dropLast
    else none
  else if (cs.take scheme.length).map Char.toLower = scheme then
    withoutHyphens? groups (cs.drop scheme.length)
  else withoutHyphens? groups cs

def parse? (s : String) : Option Uuid :=
  digits? s.toList |>.bind Hex.bytes? |>.bind ofBytes?

end Uuid

end Statechart
