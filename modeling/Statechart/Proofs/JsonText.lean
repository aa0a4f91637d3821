import Mathlib.Data.List.Forall2
import Statechart.Json.Document
import Statechart.Json.Text
import Statechart.Proofs.Reading

-- Both written forms of a value are read as the document that says what the value is.

namespace Statechart

namespace Json

mutual

-- What the text of a value says.
def document : Json → Document
  | null => .null
  | bool b => .bool b
  | int n => .int n
  | str s => .str (some s)
  | arr items => .arr (documents items)
  | obj fields => .obj (documentFields fields)

def documents : List Json → List Document
  | [] => []
  | a :: rest => a.document :: documents rest

def documentFields : List (String × Json) → List (Option String × Document)
  | [] => []
  | (key, a) :: rest => (some key, a.document) :: documentFields rest

end

theorem documents_eq (items : List Json) : documents items = items.map document := by
  induction items with
  | nil => rfl
  | cons a rest ih => rw [documents, ih, List.map_cons]

theorem documentFields_eq (fields : List (String × Json)) :
    documentFields fields = fields.map fun e => (some e.1, e.2.document) := by
  induction fields with
  | nil => rfl
  | cons e rest ih => rw [documentFields, ih, List.map_cons]

end Json

namespace Document

open Json (separated quoted escaped)

variable {cs rest bs gap opening closing : List Char} {c : Char} {fuel : Nat} {d : Document}

section Strings

-- A character is written as one piece that stands for it.
theorem exists_piece (c : Char) : ∃ p,
    (∀ rest, pieces? (escaped c ++ rest) = (pieces? rest).map fun (l, rest) => (p :: l, rest)) ∧
      ∀ l, joined? (p :: l) = (joined? l).map (c :: ·) := by
  unfold escaped
  split
  case h_8 hq hb _ _ _ _ _ =>
    split
    case isTrue hc =>
      have hbyte : (UInt8.ofNat c.toNat).toNat = c.toNat := by
        simp only [UInt8.toNat_ofNat']
        omega
      have hhex : hex4? '0' '0' (Hex.digit (c.toNat / 16)) (Hex.digit (c.toNat % 16)) =
          some c.toNat := by
        simp only [hex4?, Hex.value?_digit _ (show c.toNat / 16 < 16 by omega),
          Hex.value?_digit _ (show c.toNat % 16 < 16 by omega),
          show Hex.value? '0' = some 0 from rfl]
        simp only [Option.bind_eq_bind, Option.bind_some, Option.pure_def, Option.some.injEq]
        omega
      have hunit : isHighSurrogate c.toNat = false ∧ isLowSurrogate c.toNat = false := by
        simp only [isHighSurrogate, isLowSurrogate, Bool.and_eq_false_iff, decide_eq_false_iff_not]
        omega
      refine ⟨.unit c.toNat, fun rest => ?_, fun l => ?_⟩
      case refine_1 =>
        rw [pieces?.eq_def]
        simp [Hex.ofByte, hbyte, hhex]
      case refine_2 =>
        rw [joined?.eq_def]
        simp [hunit, Char.ofNat_toNat]
    case isFalse hc =>
      refine ⟨.char c, fun rest => ?_, fun _ => rfl⟩
      rw [List.singleton_append, pieces?.eq_def]
      simp only [if_neg hq, if_neg hb, if_neg hc]
  all_goals exact ⟨.char _, fun _ => by rw [pieces?.eq_def]; rfl, fun _ => rfl⟩

theorem stringBody?_escaped (s : String) (rest : List Char) :
    stringBody? (s.toList.flatMap escaped ++ '"' :: rest) = some (some s, rest) := by
  have hpieces (cs : List Char) : ∃ l,
      pieces? (cs.flatMap escaped ++ '"' :: rest) = some (l, rest) ∧ joined? l = some cs := by
    induction cs with
    | nil => exact ⟨[], by rw [pieces?.eq_def]; rfl, rfl⟩
    | cons c cs ih =>
      obtain ⟨p, hp, hj⟩ := exists_piece c
      obtain ⟨l, hl, hcs⟩ := ih
      refine ⟨p :: l, ?_, by rw [hj, hcs, Option.map_some]⟩
      rw [List.flatMap_cons, List.append_assoc, hp, hl, Option.map_some]
  obtain ⟨l, hl, hs⟩ := hpieces s.toList
  simp only [stringBody?, hl, Option.map_some, hs, String.ofList_toList]

end Strings

-- What follows does not go on with a number.
def Ends (rest : List Char) : Prop :=
  ∀ c ∈ rest.head?, c.isDigit = false ∧ c ≠ '.' ∧ c ≠ 'e' ∧ c ≠ 'E'

section Numbers

theorem Ends.decimal (h : Ends rest) : Decimal.Ends rest := fun c hc => (h c hc).left

theorem Ends.integer (h : Ends rest) :
    fraction? rest = some (false, rest) ∧ exponent? rest = some (false, rest) := by
  cases rest with
  | nil => exact ⟨rfl, rfl⟩
  | cons c rest =>
    obtain ⟨_, hdot, he, hE⟩ := h c rfl
    constructor
    case left =>
      unfold fraction?
      split <;> simp_all
    case right => simp [exponent?, he, hE]

theorem digits?_append {ds : List Char} (hne : ds ≠ []) (hd : ∀ c ∈ ds, c.isDigit = true)
    (hr : Decimal.Ends rest) : digits? (ds ++ rest) = some (ds, rest) := by
  obtain ⟨ht, hdrop⟩ := Decimal.takeWhile_digits hd hr
  cases ds with
  | nil => exact absurd rfl hne
  | cons d ds => simp only [digits?, ht, hdrop]

theorem integerPart?_digits (n : Nat) (hr : Decimal.Ends rest) :
    integerPart? (Nat.toDigits 10 n ++ rest) = some (n, rest) := by
  rcases Nat.eq_zero_or_pos n with rfl | hn
  · cases rest with
    | nil => rfl
    | cons c rest =>
      have hc : c.isDigit = false := hr c rfl
      simp [Nat.toDigits_zero, integerPart?, hc]
  · obtain ⟨d, ds, hds, hd⟩ := Decimal.exists_toDigits hn
    have hdigits := digits?_append (Nat.toDigits_ne_nil (b := 10) (n := n))
      (Decimal.toDigits_isDigit n) hr
    have hvalue : digitsValue (Nat.toDigits 10 n) = n :=
      Nat.ofDigitChars_ten_toDigits
    rw [hds] at hdigits hvalue ⊢
    rw [List.cons_append] at hdigits ⊢
    unfold integerPart?
    split
    · simp_all
    · simp only [hdigits, Option.map_some, hvalue]

theorem intChars_ofNat (n : Nat) : Json.intChars (.ofNat n) = Nat.toDigits 10 n := Nat.toList_repr

theorem intChars_negSucc (n : Nat) :
    Json.intChars (.negSucc n) = '-' :: Nat.toDigits 10 (n + 1) := by
  simp [Json.intChars, Int.toString_eq_repr, Int.repr]

theorem number?_intChars (n : Int) (hr : Ends rest) :
    number? (Json.intChars n ++ rest) = some (.int n, rest) := by
  obtain ⟨hf, he⟩ := hr.integer
  cases n with
  | ofNat n =>
    obtain ⟨d, ds, hds, hd⟩ := Decimal.exists_digit n
    have hsign : d ≠ '-' := by
      rintro rfl
      contradiction
    have hpart := integerPart?_digits n hr.decimal
    rw [intChars_ofNat, hds, List.cons_append] at *
    simp [number?, hsign, hpart, hf, he]
  | negSucc n =>
    rw [intChars_negSucc, List.cons_append]
    simp [number?, integerPart?_digits (n + 1) hr.decimal, hf, he, Int.negSucc_eq]

theorem exists_intChars (n : Int) :
    ∃ c rest, Json.intChars n = c :: rest ∧ (c = '-' ∨ c.isDigit = true) := by
  cases n with
  | ofNat n =>
    obtain ⟨d, ds, hds, hd⟩ := Decimal.exists_digit n
    exact ⟨d, ds, (intChars_ofNat n).trans hds, .inr hd⟩
  | negSucc n => exact ⟨_, _, intChars_negSucc n, .inl rfl⟩

end Numbers

section Blanks

def Blank (bs : List Char) : Prop := ∀ c ∈ bs, isBlank c = true

theorem skipBlanks_append (hb : Blank bs) (cs : List Char) :
    skipBlanks (bs ++ cs) = skipBlanks cs := List.dropWhile_append_of_pos hb

theorem skipBlanks_cons (hc : isBlank c = false) : skipBlanks (c :: cs) = c :: cs :=
  List.dropWhile_cons_of_neg (by simp [hc])

theorem skipBlanks_upTo (hb : Blank bs) (hc : isBlank c = false) :
    skipBlanks (bs ++ c :: cs) = c :: cs := by
  rw [skipBlanks_append hb, skipBlanks_cons hc]

-- Neither blanks nor what closes or separates parts goes on with a number.
theorem ends_of_blank (hb : Blank bs) (hc : Ends (c :: cs)) : Ends (bs ++ c :: cs) := by
  cases bs with
  | nil => exact hc
  | cons b bs =>
    intro c' hc'
    obtain rfl : b = c' := Option.some.inj hc'
    have hblank : isBlank b = true := hb b List.mem_cons_self
    simp only [isBlank, Bool.or_eq_true, decide_eq_true_eq] at hblank
    rcases hblank with ((rfl | rfl) | rfl) | rfl <;> decide

-- A number starts with what nothing else starts with.
theorem starts_number (hc : c = '-' ∨ c.isDigit = true) : isBlank c = false ∧
    c ∉ ['n', 't', 'f', '"', '[', '\x7b'] := by
  rcases hc with rfl | hc
  · decide
  · constructor
    case left =>
      rw [isBlank]
      by_contra h
      simp only [Bool.not_eq_false, Bool.or_eq_true, decide_eq_true_eq] at h
      rcases h with ((rfl | rfl) | rfl) | rfl <;> contradiction
    case right =>
      simp only [List.mem_cons, List.not_mem_nil, or_false]
      rintro (rfl | rfl | rfl | rfl | rfl | rfl) <;> contradiction

theorem value?_number (hc : c = '-' ∨ c.isDigit = true) :
    value? (fuel + 1) (c :: cs) = number? (c :: cs) := by
  obtain ⟨hb, hne⟩ := starts_number hc
  rw [value?, skipBlanks_cons hb]
  split <;> simp_all

theorem value?_blanks (hb : Blank bs) : value? fuel (bs ++ cs) = value? fuel cs := by
  cases fuel with
  | zero => rfl
  | succ fuel => rw [value?, value?, skipBlanks_append hb]

end Blanks

section Spelling

variable {α : Type} {a : α} {part? : Nat → List Char → Option (α × List Char)}
  {parts? : Nat → List Char → Option (List α × List Char)} {whole : List α → Document}
  {left right : Char} {p : List Char} {as : List α} {parts : List (List Char)}

-- The text `cs` says `a`. Twice its length is fuel enough to read it.
structure Spells (read? : Nat → List Char → Option (α × List Char)) (a : α) (cs : List Char) :
    Prop where
  starts : ∃ c rest, cs = c :: rest ∧ isBlank c = false ∧ c ∉ [']', '\x7d']
  reads (fuel : Nat) : 2 * cs.length ≤ fuel → Reads Ends (read? fuel) cs a

-- What stands between two brackets is read part by part, with commas between the parts.
structure ReadsParts (part? : Nat → List Char → Option (α × List Char))
    (parts? : Nat → List Char → Option (List α × List Char)) (left right : Char)
    (whole : List α → Document) : Prop where
  left_starts : isBlank left = false ∧ left ∉ [']', '\x7d']
  right_ends : isBlank right = false ∧ right ∈ [']', '\x7d']
  blanks {bs cs : List Char} {fuel : Nat} : Blank bs → parts? fuel (bs ++ cs) = parts? fuel cs
  next {a : α} {cs rest later : List Char} {fuel : Nat} : part? fuel cs = some (a, rest) →
    skipBlanks rest = ',' :: later →
      parts? (fuel + 1) cs = (parts? fuel later).map fun (l, rest) => (a :: l, rest)
  done {a : α} {cs rest later : List Char} {fuel : Nat} : part? fuel cs = some (a, rest) →
    skipBlanks rest = right :: later → parts? (fuel + 1) cs = some ([a], later)
  empty {cs later : List Char} {fuel : Nat} : skipBlanks cs = right :: later →
    value? (fuel + 1) (left :: cs) = some (whole [], later)
  more {cs later : List Char} {c : Char} {fuel : Nat} : skipBlanks cs = c :: later → c ≠ right →
    value? (fuel + 1) (left :: cs) =
      (parts? fuel (c :: later)).map fun (l, rest) => (whole l, rest)

theorem ends_of_bracket (hc : c ∈ [',', ']', '\x7d']) : Ends (c :: cs) := by
  intro c' hc'
  obtain rfl : c = c' := Option.some.inj hc'
  simp only [List.mem_cons, List.not_mem_nil, or_false] at hc
  rcases hc with rfl | rfl | rfl <;> decide

-- Parts start as the first of them does.
theorem Spells.starts_separated (hp : as.Forall₂ (Spells part?) parts) (hne : parts ≠ [])
    (sep : List Char) : ∃ c rest,
      separated sep parts = c :: rest ∧ isBlank c = false ∧ c ∉ [']', '\x7d'] := by
  cases hp with
  | nil => exact absurd rfl hne
  | @cons a p _ parts ha _ =>
    obtain ⟨c, rest, rfl, hc⟩ := ha.starts
    cases parts with
    | nil => exact ⟨c, rest, rfl, hc⟩
    | cons q parts => exact ⟨c, rest ++ sep ++ separated sep (q :: parts), rfl, hc⟩

namespace ReadsParts

variable (hr : ReadsParts part? parts? left right whole) (hg : Blank gap) (hc : Blank closing)
  (hp : as.Forall₂ (Spells part?) parts)
include hr hg hc hp

theorem reads_separated (hne : parts ≠ []) (hf : 2 * (separated (',' :: gap) parts).length < fuel)
    (rest : List Char) : parts? fuel (separated (',' :: gap) parts ++ (closing ++ right :: rest)) =
      some (as, rest) := by
  induction hp generalizing fuel with
  | nil => exact absurd rfl hne
  | @cons a p as parts ha hp ih =>
    cases fuel with
    | zero => simp at hf
    | succ fuel =>
      cases hp with
      | nil =>
        have hends : Ends (right :: rest) :=
          ends_of_bracket (List.mem_cons_of_mem ',' hr.right_ends.right)
        have hpart := ha.reads fuel (by simp only [separated] at hf; omega) _
          (ends_of_blank hc hends)
        exact hr.done hpart (skipBlanks_upTo hc hr.right_ends.left)
      | @cons a' p' as parts _ _ =>
        simp only [separated, List.length_append, List.length_cons] at hf
        have hpart := ha.reads fuel (by omega)
          (',' :: (gap ++ (separated (',' :: gap) (p' :: parts) ++ (closing ++ right :: rest))))
          (ends_of_bracket (by decide))
        have hnext := hr.next hpart (skipBlanks_cons (by decide))
        rw [hr.blanks hg, ih (by simp) (by omega), Option.map_some] at hnext
        simpa only [separated, List.append_assoc, List.cons_append] using hnext

theorem spells (ho : Blank opening) : Spells value? (whole as)
    (left :: (opening ++ separated (',' :: gap) parts ++ closing ++ [right])) := by
  refine ⟨⟨left, _, rfl, hr.left_starts⟩, fun {fuel} hf rest _ => ?_⟩
  cases fuel with
  | zero => simp at hf
  | succ fuel =>
    simp only [List.cons_append, List.append_assoc, List.nil_append]
    by_cases hparts : parts = []
    case pos =>
      subst hparts
      cases hp
      refine hr.empty ?_
      rw [skipBlanks_append ho]
      exact skipBlanks_upTo hc hr.right_ends.left
    case neg =>
      have hread := hr.reads_separated hg hc hp hparts (show _ < fuel by simp at hf; omega) rest
      obtain ⟨c, later, hsep, hb, hne⟩ := Spells.starts_separated hp hparts (',' :: gap)
      rw [hsep, List.cons_append] at hread ⊢
      have hright : c ≠ right := fun h => hne (h ▸ hr.right_ends.right)
      rw [hr.more (skipBlanks_upTo ho hb) hright, hread, Option.map_some]

end ReadsParts

end Spelling

section Values

theorem Spells.of_word {d : Document}
    (hs : ∃ c rest, cs = c :: rest ∧ isBlank c = false ∧ c ∉ [']', '\x7d'])
    (h : ∀ fuel, Reads Ends (value? (fuel + 1)) cs d) : Spells value? d cs where
  starts := hs
  reads {fuel} hf := by
    obtain ⟨c, rest, rfl, _⟩ := hs
    cases fuel with
    | zero => simp at hf
    | succ fuel => exact h fuel

theorem spells_null : Spells value? .null ['n', 'u', 'l', 'l'] :=
  .of_word ⟨_, _, rfl, by decide⟩ fun _ _ _ => rfl

theorem spells_true : Spells value? (.bool true) ['t', 'r', 'u', 'e'] :=
  .of_word ⟨_, _, rfl, by decide⟩ fun _ _ _ => rfl

theorem spells_false : Spells value? (.bool false) ['f', 'a', 'l', 's', 'e'] :=
  .of_word ⟨_, _, rfl, by decide⟩ fun _ _ _ => rfl

theorem spells_int (n : Int) : Spells value? (.int n) (Json.intChars n) := by
  obtain ⟨c, rest, hn, hc⟩ := exists_intChars n
  refine .of_word ⟨c, rest, hn, (starts_number hc).left, ?_⟩ fun fuel later hr => ?_
  case refine_1 =>
    simp only [List.mem_cons, List.not_mem_nil, or_false]
    rintro (rfl | rfl) <;> simp at hc
  case refine_2 =>
    have h := number?_intChars n hr
    rw [hn, List.cons_append] at h ⊢
    rw [value?_number hc, h]

theorem spells_quoted (s : String) : Spells value? (.str (some s)) (quoted s) := by
  refine .of_word ⟨_, _, rfl, by decide⟩ fun fuel rest _ => ?_
  have h := stringBody?_escaped s rest
  rw [quoted, List.cons_append, List.cons_append, List.append_assoc, List.singleton_append, value?,
    skipBlanks_cons (by decide)]
  simp only [h, Option.map_some]

theorem readsItems : ReadsParts value? items? '[' ']' .arr where
  left_starts := by decide
  right_ends := by decide
  blanks {_ _ fuel} hb := by
    cases fuel with
    | zero => rfl
    | succ fuel => rw [items?, items?, value?_blanks hb]
  next hp hs := by
    rw [items?]
    simp only [hp, hs]
  done hp hs := by
    rw [items?]
    simp only [hp, hs]
  empty hs := by
    rw [value?, skipBlanks_cons (by decide)]
    simp only [hs]
  more hs hne := by
    rw [value?, skipBlanks_cons (by decide)]
    simp [hs, hne]

-- One field of an object, as it is read between commas.
def field? (fuel : Nat) (cs : List Char) : Option ((Option String × Document) × List Char) :=
  match skipBlanks cs with
  | '"' :: rest => do
    let (key, rest) ← stringBody? rest
    match skipBlanks rest with
    | ':' :: rest => (value? fuel rest).map fun (a, rest) => ((key, a), rest)
    | _ => none
  | _ => none

-- What is read after a field.
def afterField? (fuel : Nat) (field : Option String × Document) (cs : List Char) :
    Option (List (Option String × Document) × List Char) :=
  match skipBlanks cs with
  | ',' :: rest => (fields? fuel rest).map fun (l, rest) => (field :: l, rest)
  | '\x7d' :: rest => some ([field], rest)
  | _ => none

theorem fields?_of_field? {field : Option String × Document}
    (h : field? fuel cs = some (field, rest)) :
    fields? (fuel + 1) cs = afterField? fuel field rest := by
  unfold field? at h
  split at h
  case h_1 body hcs =>
    obtain ⟨⟨key, value⟩, hbody, h⟩ := Option.bind_eq_some_iff.mp h
    dsimp only at h
    split at h
    case h_1 text hvalue =>
      obtain ⟨⟨a, rest'⟩, ha, h⟩ := Option.map_eq_some_iff.mp h
      cases h
      rw [fields?]
      simp only [hcs, hbody, hvalue, ha]
      rfl
    case h_2 => cases h
  case h_2 => cases h

theorem readsFields : ReadsParts field? fields? '\x7b' '\x7d' .obj where
  left_starts := by decide
  right_ends := by decide
  blanks {_ _ fuel} hb := by
    cases fuel with
    | zero => rfl
    | succ fuel => rw [fields?, fields?, skipBlanks_append hb]
  next hp hs := by
    rw [fields?_of_field? hp]
    simp only [afterField?, hs]
  done hp hs := by
    rw [fields?_of_field? hp]
    simp only [afterField?, hs]
  empty hs := by
    rw [value?, skipBlanks_cons (by decide)]
    simp only [hs]
  more hs hne := by
    rw [value?, skipBlanks_cons (by decide)]
    simp [hs, hne]

-- A field is written with its key in front.
theorem spells_field {d : Document} (key : String) (h : Spells value? d cs) (hg : Blank gap) :
    Spells field? (some key, d) (quoted key ++ ':' :: (gap ++ cs)) := by
  refine ⟨⟨_, _, rfl, by decide⟩, fun {fuel} hf rest hr => ?_⟩
  have hkey := stringBody?_escaped key (':' :: (gap ++ (cs ++ rest)))
  have hvalue : value? fuel (gap ++ (cs ++ rest)) = some (d, rest) := by
    rw [value?_blanks hg]
    exact h.reads _ (by simp at hf; omega) rest hr
  simp only [quoted, List.cons_append, List.append_assoc, List.nil_append, field?,
    skipBlanks_cons (show isBlank '"' = false by decide), hkey, Option.bind_eq_bind,
    Option.bind_some, skipBlanks_cons (show isBlank ':' = false by decide), hvalue,
    Option.map_some]

end Values

section Forms

variable {α : Type} {part? : Nat → List Char → Option (α × List Char)}
  {parts? : Nat → List Char → Option (List α × List Char)} {whole : List α → Document}
  {left right : Char} {as : List α} {parts : List (List Char)}

theorem blank_nil : Blank [] := List.forall_mem_nil _

theorem blank_space : Blank [' '] := by simp [Blank, isBlank]

theorem blank_lineBreak (level : Nat) : Blank (Json.lineBreak level) := by
  intro c hc
  rcases List.mem_cons.mp hc with rfl | hc
  · decide
  · obtain rfl := List.eq_of_mem_replicate hc
    decide

theorem ReadsParts.spells_compact (hr : ReadsParts part? parts? left right whole)
    (hp : as.Forall₂ (Spells part?) parts) :
    Spells value? (whole as) (left :: separated [','] parts ++ [right]) := by
  simpa using hr.spells blank_nil blank_nil hp blank_nil

theorem ReadsParts.spells_block (hr : ReadsParts part? parts? left right whole)
    (hp : as.Forall₂ (Spells part?) parts) (level : Nat) :
    Spells value? (whole as) (Json.block left right level parts) := by
  cases parts with
  | nil => exact hr.spells_compact hp
  | cons p parts =>
    simpa [Json.block] using
      hr.spells (blank_lineBreak (level + 1)) (blank_lineBreak level) hp
        (blank_lineBreak (level + 1))

mutual

theorem spells_compact : (j : Json) → Spells value? j.document j.compact
  | .null => spells_null
  | .bool true => spells_true
  | .bool false => spells_false
  | .int n => spells_int n
  | .str s => spells_quoted s
  | .arr items => readsItems.spells_compact (spells_compactItems items)
  | .obj fields => readsFields.spells_compact (spells_compactFields fields)

theorem spells_compactItems : (items : List Json) →
    (Json.documents items).Forall₂ (Spells value?) (Json.compactItems items)
  | [] => .nil
  | a :: rest => .cons (spells_compact a) (spells_compactItems rest)

theorem spells_compactFields : (fields : List (String × Json)) →
    (Json.documentFields fields).Forall₂ (Spells field?) (Json.compactFields fields)
  | [] => .nil
  | (key, a) :: rest =>
    .cons (spells_field key (spells_compact a) blank_nil) (spells_compactFields rest)

end

mutual

theorem spells_indented (level : Nat) : (j : Json) → Spells value? j.document (j.indented level)
  | .null => spells_null
  | .bool true => spells_true
  | .bool false => spells_false
  | .int n => spells_int n
  | .str s => spells_quoted s
  | .arr items => readsItems.spells_block (spells_indentedItems (level + 1) items) level
  | .obj fields => readsFields.spells_block (spells_indentedFields (level + 1) fields) level

theorem spells_indentedItems (level : Nat) : (items : List Json) →
    (Json.documents items).Forall₂ (Spells value?) (Json.indentedItems level items)
  | [] => .nil
  | a :: rest => .cons (spells_indented level a) (spells_indentedItems level rest)

theorem spells_indentedFields (level : Nat) : (fields : List (String × Json)) →
    (Json.documentFields fields).Forall₂ (Spells field?) (Json.indentedFields level fields)
  | [] => .nil
  | (key, a) :: rest =>
    .cons (spells_field key (spells_indented level a) blank_space)
      (spells_indentedFields level rest)

end

theorem Spells.parse? {d : Document} (h : Spells value? d cs) : Document.ofChars? cs = some d := by
  have hread := h.reads (2 * cs.length + 2) (by omega) [] (by simp [Ends])
  rw [List.append_nil] at hread
  simp [ofChars?, hread, skipBlanks]

-- Both written forms of a value are read as what it says.
theorem parse?_text (j : Json) :
    parse? j.text = some j.document ∧ parse? j.prettyText = some j.document := by
  simp only [parse?, Json.text, Json.prettyText, String.toList_ofList]
  exact ⟨(spells_compact j).parse?, (spells_indented 0 j).parse?⟩

end Forms

end Document

end Statechart
