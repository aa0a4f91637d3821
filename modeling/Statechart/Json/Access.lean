import Statechart.Json.Basic

-- Taking values apart. A field that is not there counts as null, and null as an empty list.

namespace Statechart.Json

variable {α β : Type}

def string? : Json → Option String
  | str s => some s
  | _ => none

def bool? : Json → Option Bool
  | bool b => some b
  | _ => none

def int? : Json → Option Int
  | int n => some n
  | _ => none

def nat? : Json → Option Nat
  | int (.ofNat n) => some n
  | _ => none

def items? : Json → Option (List Json)
  | arr l => some l
  | null => some []
  | _ => none

def list? (f : Json → Option α) (j : Json) : Option (List α) := j.items?.bind (·.mapM f)

def pair? (f : Json → Option α) (g : Json → Option β) : Json → Option (α × β)
  | arr [a, b] => do
    pure (← f a, ← g b)
  | _ => none

-- What there is to read in a field, if anything.
def optional? (f : Json → Option α) (j : Json) (key : String) : Option (Option α) :=
  match j.field key with
  | null => some none
  | a => (f a).map some

def flag? (j : Json) (key : String) : Option Bool := (j.optional? bool? key).map (·.getD false)

def hasField (j : Json) (key : String) : Bool :=
  match j with
  | obj fields => fields.any (·.1 = key)
  | _ => false

theorem sizeOf_field_le (j : Json) (key : String) : sizeOf (j.field key) ≤ sizeOf j := by
  cases j
  case obj fields =>
    simp only [field]
    cases h : fields.find? (·.1 = key) with
    | none => simp
    | some e =>
      have hm := List.sizeOf_lt_of_mem (List.mem_of_find?_eq_some h)
      have he : sizeOf e = 1 + sizeOf e.1 + sizeOf e.2 := by cases e; simp
      simp
      omega
  all_goals simp [field]

theorem sizeOf_lt_of_mem_items? {j a : Json} {l : List Json} (h : j.items? = some l)
    (ha : a ∈ l) : sizeOf a < sizeOf j := by
  cases j <;> simp [items?] at h
  case null => simp [h] at ha
  case arr items =>
    subst h
    have := List.sizeOf_lt_of_mem ha
    simp
    omega

end Statechart.Json
