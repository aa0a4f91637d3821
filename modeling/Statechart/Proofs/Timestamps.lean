import Mathlib.Algebra.Ring.Nat
import Statechart.Proofs.Reading
import Statechart.Time.Reading

-- A timestamp is read as it was written.

namespace Statechart

namespace Decimal

variable {width n : Nat}

theorem padded_isDigit (width n : Nat) : ∀ c ∈ Timestamp.padded width n, c.isDigit = true := by
  intro c hc
  rcases List.mem_append.mp hc with hc | hc
  · obtain rfl := List.eq_of_mem_replicate hc
    decide
  · exact toDigits_isDigit n c hc

theorem length_padded (hw : 0 < width) (hn : n < 10 ^ width) :
    (Timestamp.padded width n).length = width := by
  have hlen := (Nat.length_toDigits_le_iff (by decide) hw).mpr hn
  simp only [Timestamp.padded, List.length_append, List.length_replicate]
  omega

theorem length_padded_le {places : Nat} (hp : 0 < places) (hn : n < 10 ^ places) :
    (Timestamp.padded width n).length ≤ width + places := by
  have hlen := (Nat.length_toDigits_le_iff (by decide) hp).mpr hn
  simp only [Timestamp.padded, List.length_append, List.length_replicate]
  omega

theorem value_padded (width n : Nat) : Timestamp.value (Timestamp.padded width n) = n := by
  change Nat.ofDigitChars 10 (List.replicate _ '0' ++ Nat.toDigits 10 n) 0 = n
  rw [Nat.ofDigitChars_append, Nat.ofDigitChars_replicate_zero, Nat.mul_zero,
    Nat.ofDigitChars_ten_toDigits]

theorem value_append_zeros (ds : List Char) (k : Nat) :
    Timestamp.value (ds ++ List.replicate k '0') = 10 ^ k * Timestamp.value ds := by
  change Nat.ofDigitChars 10 (ds ++ List.replicate k '0') 0 = _
  rw [Nat.ofDigitChars_append, Nat.ofDigitChars_replicate_zero]
  rfl

theorem exists_padded (width n : Nat) :
    ∃ d ds, Timestamp.padded width n = d :: ds ∧ d.isDigit = true := by
  cases h : Timestamp.padded width n with
  | nil => simp [Timestamp.padded, Nat.toDigits_ne_nil] at h
  | cons d ds => exact ⟨d, ds, rfl, padded_isDigit width n d (h ▸ List.mem_cons_self)⟩

end Decimal

theorem Date.month_lt (d : Date) : d.month < 10 ^ 2 := by
  have := d.month_le
  omega

theorem Date.day_lt (d : Date) : d.day < 10 ^ 2 := by
  have hle : daysInMonth d.year d.month ≤ 31 := by
    unfold daysInMonth
    split_ifs <;> decide
  have := d.day_le
  omega

namespace Timestamp

variable {α : Type} {c : Char} {cs ds rest : List Char} {width n : Nat}

-- What follows does not start with a blank.
def NotBlank (rest : List Char) : Prop := ∀ c ∈ rest.head?, isBlank c = false

theorem isBlank_of_isDigit (hc : c.isDigit = true) : isBlank c = false := by
  have hall : ∀ n < 10, isBlank (Char.ofNat (48 + n)) = false := by decide
  simp only [Char.isDigit, ge_iff_le, Bool.and_eq_true, decide_eq_true_eq,
    UInt32.le_iff_toNat_le] at hc
  have hge : 48 ≤ c.toNat := hc.left
  have hle : c.toNat ≤ 57 := hc.right
  have h := hall (c.toNat - 48) (by omega)
  rwa [Nat.add_sub_cancel' hge, Char.ofNat_toNat] at h

theorem notBlank_cons (hc : isBlank c = false) (cs : List Char) : NotBlank (c :: cs) := by
  intro c' hc'
  obtain rfl := Option.some.inj hc'
  exact hc

theorem notBlank_padded (width n : Nat) (rest : List Char) :
    NotBlank (padded width n ++ rest) := by
  obtain ⟨d, ds, hds, hd⟩ := Decimal.exists_padded width n
  rw [hds]
  exact notBlank_cons (isBlank_of_isDigit hd) _

theorem reads_skipBlanks : Reads NotBlank skipBlanks [] () := by
  intro rest hr
  cases rest with
  | nil => rfl
  | cons c rest =>
    have hc : isBlank c = false := hr c rfl
    simp [skipBlanks, skipWhile, hc]

-- A look at the next character takes nothing.
theorem reads_peek {P : List Char → Prop} {f : Option Char → Reader α} {a : α}
    (h : Reads P (f (some c)) (c :: cs) a) : Reads P (peek? >>= f) (c :: cs) a := h

theorem reads_next (c : Char) : Reads Anything next [c] c := fun _ _ => rfl

theorem reads_literal (c : Char) : Reads Anything (literal c) [c] () := by
  refine (reads_next c).last ?_
  rw [if_pos rfl]
  exact .pure ()

-- Blanks may stand before a literal, and there are none.
theorem reads_blanks_literal {P : List Char → Prop} {f : Unit → Reader α} {a : α}
    (hc : isBlank c = false) (h : Reads P (f ()) cs a) :
    Reads P (skipBlanks >>= fun _ => literal c >>= f) (c :: cs) a :=
  reads_skipBlanks.bind ((reads_literal c).seq h) fun rest _ => notBlank_cons hc (cs ++ rest)

theorem reads_digitsAtMost (hne : ds ≠ []) (hd : ∀ c ∈ ds, c.isDigit = true)
    (hl : ds.length ≤ width) :
    Reads (fun rest => ds.length = width ∨ Decimal.Ends rest) (digitsAtMost width) ds ds := by
  intro rest hr
  have htake : ((ds ++ rest).take width).takeWhile Char.isDigit = ds := by
    rw [List.take_append, List.take_of_length_le hl]
    refine (Decimal.takeWhile_digits hd ?_).left
    rcases hr with hr | hr
    case inl => simp [hr, Decimal.Ends]
    case inr =>
      intro c hc
      rw [List.head?_take] at hc
      split at hc
      case isTrue => cases hc
      case isFalse => exact hr c hc
  cases ds with
  | nil => exact absurd rfl hne
  | cons d ds => simp only [digitsAtMost, htake, List.drop_left']

theorem padded_ne_nil (width n : Nat) : padded width n ≠ [] := by
  obtain ⟨d, ds, hds, _⟩ := Decimal.exists_padded width n
  rw [hds]
  exact List.cons_ne_nil d ds

-- A padded number has the full width, so that no more digits are taken after it.
theorem reads_padded (hw : 0 < width) (hn : n < 10 ^ width) :
    Reads Anything (digitsAtMost width) (padded width n) (padded width n) := by
  have hl := Decimal.length_padded hw hn
  exact fun rest _ => reads_digitsAtMost (padded_ne_nil width n)
    (Decimal.padded_isDigit width n) (Nat.le_of_eq hl) rest (.inl hl)

theorem reads_number (hw : 0 < width) (hn : n < 10 ^ width) :
    Reads Anything (number width) (padded width n) n := by
  have h : Reads Anything (number width) ([] ++ padded width n) (value (padded width n)) :=
    reads_skipBlanks.bind ((reads_padded hw hn).last (.pure _))
      fun rest _ => notBlank_padded width n rest
  rwa [Decimal.value_padded] at h

theorem reads_allDigits (hne : ds ≠ []) (hd : ∀ c ∈ ds, c.isDigit = true) :
    Reads Decimal.Ends allDigits ds (value ds) := by
  intro rest hr
  have htake := (Decimal.takeWhile_digits hd hr).left
  have hget : (get : Reader (List Char)) (ds ++ rest) = some (ds ++ rest, ds ++ rest) := rfl
  rw [allDigits, bind_eq_of_eq_some hget]
  simp only [htake, List.isEmpty_iff, if_neg hne]
  have hdrop : (modify (·.drop ds.length) : Reader Unit) (ds ++ rest) = some ((), rest) := by
    change some ((), (ds ++ rest).drop ds.length) = _
    rw [List.drop_left]
  rw [bind_eq_of_eq_some hdrop]
  rfl

theorem reads_year (y : Int) : Reads Decimal.Ends year (yearChars y) y := by
  have hblanks (rest : List Char) : NotBlank (yearChars y ++ rest) := by
    unfold yearChars
    split_ifs
    case pos => exact notBlank_padded 4 y.toNat rest
    case pos | neg => exact notBlank_cons (by decide) _
  change Reads _ year ([] ++ yearChars y) y
  refine reads_skipBlanks.bind ?_ fun rest _ => hblanks rest
  unfold yearChars
  split
  case isTrue hy =>
    have hn : y.toNat < 10 ^ 4 := by omega
    have hplain : Reads Anything (digitsAtMost 4 >>= fun ds => pure (value ds : Int))
        (padded 4 y.toNat) y := by
      refine (reads_padded (by decide) hn).last ?_
      rw [Decimal.value_padded, Int.toNat_of_nonneg hy.left]
      exact .pure y
    obtain ⟨d, ds, hds, hd⟩ := Decimal.exists_padded 4 y.toNat
    rw [hds] at hplain ⊢
    refine reads_peek ?_
    split
    case h_1 hc | h_2 hc =>
      obtain rfl := Option.some.inj hc
      simp at hd
    case h_3 => exact hplain.mono fun _ _ => trivial
  case isFalse hy =>
    have hdigits := reads_allDigits (padded_ne_nil 4 y.natAbs)
      (Decimal.padded_isDigit 4 y.natAbs)
    rw [Decimal.value_padded] at hdigits
    split
    case isTrue hneg =>
      refine reads_peek ((reads_next '-').seq (hdigits.last ?_))
      rw [Int.ofNat_natAbs_of_nonpos (by omega), Int.neg_neg]
      exact .pure y
    case isFalse hneg =>
      refine reads_peek ((reads_next '+').seq (hdigits.last ?_))
      rw [Int.natAbs_of_nonneg (by omega)]
      exact .pure y

theorem of?_self (d : Date) : Date.of? d.year d.month d.day = some d :=
  dif_pos ⟨⟨d.year_ge, d.year_le⟩, ⟨d.month_ge, d.month_le⟩, d.day_ge, d.day_le⟩

theorem reads_date (d : Date) : Reads Anything dateReader
    (yearChars d.year ++ '-' :: padded 2 d.month ++ '-' :: padded 2 d.day) d := by
  have hends (cs : List Char) : Decimal.Ends ('-' :: cs) := by simp [Decimal.Ends]
  rw [List.append_assoc, List.cons_append]
  refine (reads_year d.year).bind
    (reads_blanks_literal (by decide) ((reads_number (by decide) d.month_lt).seq
      (reads_blanks_literal (by decide) ((reads_number (by decide) d.day_lt).last ?_))))
    fun rest _ => hends _
  rw [of?_self]
  exact .pure d

-- What follows does not go on with a fraction.
def EndsSecond (rest : List Char) : Prop := ∀ c ∈ rest.head?, c.isDigit = false ∧ c ≠ '.'

-- The places that are missing from nine count as zeros.
theorem reads_places (width n : Nat) (hw : 0 < width) (hle : width ≤ 9) (hn : n < 10 ^ width) :
    Reads Decimal.Ends fraction ('.' :: padded width n) (10 ^ (9 - width) * n) := by
  have hl := Decimal.length_padded hw hn
  refine reads_peek ((reads_next '.').seq ?_)
  have hdigits := reads_digitsAtMost (padded_ne_nil width n) (Decimal.padded_isDigit width n)
    (show (padded width n).length ≤ 9 by omega)
  have hskip : Reads Decimal.Ends (skipWhile Char.isDigit) [] () := by
    intro rest hr
    have hdrop : rest.dropWhile Char.isDigit = rest :=
      (Decimal.takeWhile_digits (List.forall_mem_nil _) hr).right
    rw [List.nil_append, skipWhile, hdrop]
  refine (hdigits.mono fun _ hr => .inr hr).last (hskip.last ?_)
  rw [Decimal.value_append_zeros, Decimal.value_padded, hl]
  exact .pure _

theorem reads_fraction (n : Nat) (hn : n < Duration.nanosPerSecond) :
    Reads EndsSecond fraction (fractionChars n) n := by
  have hends : ∀ rest, EndsSecond rest → Decimal.Ends rest := fun _ hr c hc => (hr c hc).left
  have hlimit : n < 1000000000 := hn
  unfold fractionChars
  split_ifs with hzero hmilli hmicro
  case pos =>
    subst hzero
    intro rest hr
    have hnone : peek? rest = some (rest.head?, rest) := rfl
    rw [List.nil_append, fraction, bind_eq_of_eq_some hnone]
    refine congrFun (?_ : _ = (pure 0 : Reader Nat)) rest
    split
    case h_1 hc => exact absurd rfl (hr '.' hc).right
    case h_2 => rfl
  case pos =>
    have h := reads_places 3 (n / 1000000) (by decide) (by decide) (by omega)
    rw [show 10 ^ (9 - 3) * (n / 1000000) = n by omega] at h
    exact h.mono hends
  case pos =>
    have h := reads_places 6 (n / 1000) (by decide) (by decide) (by omega)
    rw [show 10 ^ (9 - 6) * (n / 1000) = n by omega] at h
    exact h.mono hends
  case neg =>
    have h := reads_places 9 n (by decide) (by decide) (by omega)
    rw [show 10 ^ (9 - 9) * n = n by omega] at h
    exact h.mono hends

theorem reads_offset : Reads Anything offset ['Z'] 0 := by
  intro rest _
  have hget : (get : Reader (List Char)) ('Z' :: rest) = some ('Z' :: rest, 'Z' :: rest) := rfl
  have hne : (('Z' :: rest).take 3).map Char.toUpper ≠ ['U', 'T', 'C'] := by
    intro h
    have hz := congrArg List.head? h
    simp at hz
  rw [List.singleton_append, offset, bind_eq_of_eq_some hget, if_neg hne]
  rfl

theorem ofMinutes?_self (t : Timestamp) :
    ofMinutes? t.date t.minutes t.second t.nanos = some t := by
  have hminutes := t.minutes_lt
  have hall : (t.minutes : Int).toNat < 1440 ∧ t.second ≤ 60 ∧
      t.nanos < Duration.nanosPerSecond := ⟨by omega, t.second_le, t.nanos_lt⟩
  simp only [ofMinutes?]
  rw [if_neg (by omega), if_neg (by omega)]
  exact dif_pos hall

theorem reads_chars (t : Timestamp) : Reads NotBlank reader t.chars t := by
  have hminutes := t.minutes_lt
  have hseconds := t.second_le
  have hhour : t.minutes / 60 < 10 ^ 2 := by omega
  have hminute : t.minutes % 60 < 10 ^ 2 := by omega
  have hsecond : t.second < 10 ^ 2 := by omega
  have hself : ofMinutes? t.date ((t.minutes / 60 * 60 + t.minutes % 60 : Nat) - 0) t.second
      t.nanos = some t := by
    rw [show t.minutes / 60 * 60 + t.minutes % 60 = t.minutes by omega, Int.sub_zero,
      ofMinutes?_self]
  have hchars : t.chars =
      (yearChars t.date.year ++ '-' :: padded 2 t.date.month ++ '-' :: padded 2 t.date.day) ++
      'T' :: (padded 2 (t.minutes / 60) ++ ':' :: (padded 2 (t.minutes % 60) ++
      ':' :: (padded 2 t.second ++ (fractionChars t.nanos ++ ['Z'])))) := by
    simp [chars]
  rw [hchars]
  refine (reads_date t.date).seq ((reads_next 'T').seq ?_)
  rw [if_neg (by decide)]
  refine (reads_number (by decide) hhour).seq (reads_blanks_literal (by decide)
    ((reads_number (by decide) hminute).seq (reads_blanks_literal (by decide)
    ((reads_number (by decide) hsecond).seq ((reads_fraction t.nanos t.nanos_lt).bind
      (reads_skipBlanks.bind (reads_offset.seq (reads_skipBlanks.last ?_)) ?_) ?_)))))
  · rw [if_neg (by omega), hself]
    exact .pure t
  · exact fun rest _ => notBlank_cons (by decide) rest
  · intro rest hr
    simp [EndsSecond]

theorem parse?_text (t : Timestamp) : parse? t.text = some t := by
  have h := reads_chars t [] (by simp [NotBlank])
  rw [List.append_nil] at h
  rw [parse?, text, String.toList_ofList, h]

-- No more is ever written than this.
theorem length_chars_le (t : Timestamp) : t.chars.length ≤ 64 := by
  have hminutes := t.minutes_lt
  have hseconds := t.second_le
  have hge := t.date.year_ge
  have hle := t.date.year_le
  have hpadded (n : Nat) (hn : n < 10 ^ 6) : (padded 4 n).length ≤ 10 :=
    Decimal.length_padded_le (by decide) hn
  have hyear : (yearChars t.date.year).length ≤ 11 := by
    unfold yearChars
    split
    case isTrue =>
      exact Nat.le_succ_of_le (hpadded t.date.year.toNat (by omega))
    case isFalse => exact Nat.succ_le_succ (hpadded t.date.year.natAbs (by omega))
  have htwo (n : Nat) (hn : n < 10 ^ 2) : (padded 2 n).length = 2 :=
    Decimal.length_padded (by decide) hn
  have hplaces (w n : Nat) (hw : 0 < w) (hle : w ≤ 9) (hn : n < 10 ^ w) :
      (padded w n).length ≤ 9 := by
    rwa [Decimal.length_padded hw hn]
  have hfraction : (fractionChars t.nanos).length ≤ 10 := by
    have hlimit : t.nanos < 1000000000 := t.nanos_lt
    unfold fractionChars
    split_ifs
    case pos => decide
    case pos => exact Nat.succ_le_succ (hplaces 3 _ (by decide) (by decide) (by omega))
    case pos => exact Nat.succ_le_succ (hplaces 6 _ (by decide) (by decide) (by omega))
    case neg => exact Nat.succ_le_succ (hplaces 9 _ (by decide) (by decide) (by omega))
  simp only [chars, List.length_append, List.length_cons, htwo _ t.date.month_lt,
    htwo _ t.date.day_lt, htwo (t.minutes / 60) (by omega), htwo (t.minutes % 60) (by omega),
    htwo t.second (by omega), List.length_nil]
  omega

end Timestamp

end Statechart
