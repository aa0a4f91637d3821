import Statechart.Json.Basic
import Statechart.Text.Hex

-- The two written forms of a value: compact, without any blank, and indented by two blanks a
-- level. Characters from U+0020 on stand for themselves, quote and backslash apart.

namespace Statechart.Json

def escaped (c : Char) : List Char :=
  match c with
  | '"' => ['\\', '"']
  | '\\' => ['\\', '\\']
  | '\n' => ['\\', 'n']
  | '\r' => ['\\', 'r']
  | '\t' => ['\\', 't']
  | '\x08' => ['\\', 'b']
  | '\x0c' => ['\\', 'f']
  | c =>
    if c.toNat < 0x20 then '\\' :: 'u' :: '0' :: '0' :: Hex.ofByte (.ofNat c.toNat)
    else [c]

def quoted (s : String) : List Char := '"' :: s.toList.flatMap escaped ++ ['"']

def intChars (n : Int) : List Char := (toString n).toList

-- `separated sep [a, b, c]` is `a sep b sep c`.
def separated (sep : List Char) : List (List Char) → List Char
  | [] => []
  | [a] => a
  | a :: b :: rest => a ++ sep ++ separated sep (b :: rest)

mutual

def compact : Json → List Char
  | null => ['n', 'u', 'l', 'l']
  | bool true => ['t', 'r', 'u', 'e']
  | bool false => ['f', 'a', 'l', 's', 'e']
  | int n => intChars n
  | str s => quoted s
  | arr items => '[' :: separated [','] (compactItems items) ++ [']']
  | obj fields => '\x7b' :: separated [','] (compactFields fields) ++ ['\x7d']

def compactItems : List Json → List (List Char)
  | [] => []
  | a :: rest => a.compact :: compactItems rest

def compactFields : List (String × Json) → List (List Char)
  | [] => []
  | (k, a) :: rest => (quoted k ++ ':' :: a.compact) :: compactFields rest

end

def lineBreak (level : Nat) : List Char := '\n' :: List.replicate (2 * level) ' '

-- Brackets around parts that stand on lines of their own, one level deeper.
def block (opening closing : Char) (level : Nat) : List (List Char) → List Char
  | [] => [opening, closing]
  | parts =>
    opening :: lineBreak (level + 1) ++ separated (',' :: lineBreak (level + 1)) parts ++
      lineBreak level ++ [closing]

mutual

def indented (level : Nat) : Json → List Char
  | arr items => block '[' ']' level (indentedItems (level + 1) items)
  | obj fields => block '\x7b' '\x7d' level (indentedFields (level + 1) fields)
  | null => ['n', 'u', 'l', 'l']
  | bool true => ['t', 'r', 'u', 'e']
  | bool false => ['f', 'a', 'l', 's', 'e']
  | int n => intChars n
  | str s => quoted s

def indentedItems (level : Nat) : List Json → List (List Char)
  | [] => []
  | a :: rest => indented level a :: indentedItems level rest

def indentedFields (level : Nat) : List (String × Json) → List (List Char)
  | [] => []
  | (k, a) :: rest => (quoted k ++ ':' :: ' ' :: indented level a) :: indentedFields level rest

end

def text (j : Json) : String := String.ofList j.compact

def prettyText (j : Json) : String := String.ofList (j.indented 0)

end Statechart.Json
