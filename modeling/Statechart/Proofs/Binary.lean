import Statechart.Binary.Basic
import Statechart.Proofs.Reading

-- What is written in bytes is read back from the front of whatever bytes follow. Sizes have to fit
-- into the width that they are written with.

namespace Statechart.Binary

variable {α : Type} {f : Reader α} {w : α → Bytes}

-- The size of data that can be written.
def Fits (n : Nat) : Prop := n < UInt64.size

instance (n : Nat) : Decidable (Fits n) := inferInstanceAs (Decidable (n < UInt64.size))

def StringFits (s : String) : Prop := Fits s.utf8ByteSize

instance (s : String) : Decidable (StringFits s) := inferInstanceAs (Decidable (Fits _))

def StringsFit (l : List String) : Prop := Fits l.length ∧ ∀ s ∈ l, StringFits s

instance (l : List String) : Decidable (StringsFit l) := inferInstanceAs (Decidable (_ ∧ _))

theorem reads_nat (width : Nat) {n : Nat} (h : n < capacity width) :
    Reads Anything (readNat width) (writeNat width n) n :=
  fun rest _ => readNat_writeNat width n rest h

theorem reads_size {n : Nat} (h : Fits n) : Reads Anything readSize (writeSize n) n :=
  reads_nat sizeWidth h

theorem reads_uint32 (n : UInt32) : Reads Anything readUInt32 (writeUInt32 n) n := by
  have h := (reads_nat 4 n.toNat_lt).last (g := fun n => pure (UInt32.ofNat n)) (.pure _)
  rwa [UInt32.ofNat_toNat] at h

theorem reads_int64 (n : Int64) : Reads Anything readInt64 (writeInt64 n) n := by
  have h := (reads_nat 8 n.toUInt64.toNat_lt).last
    (g := fun n => pure (UInt64.ofNat n).toInt64) (.pure _)
  rwa [UInt64.ofNat_toNat] at h

theorem reads_bool (b : Bool) : Reads Anything readBool (writeBool b) b := by
  cases b <;> exact fun _ _ => rfl

theorem reads_blob {bs : Bytes} (h : Fits bs.length) :
    Reads Anything readBlob (writeBlob bs) bs := by
  refine (reads_size h).seq fun rest _ => ?_
  simp [readBytes]

theorem toList_byteArray (bs : ByteArray) : bs.toList = bs.data.toList := by
  have hloop (i : Nat) (seen : Bytes) :
      ByteArray.toList.loop bs i seen = seen.reverse ++ bs.data.toList.drop i := by
    induction i, seen using ByteArray.toList.loop.induct bs with
    | case1 i seen hi ih =>
      have hlt : i < bs.data.toList.length := hi
      have hget : bs.get! i = bs.data.toList[i] := getElem!_pos bs.data i hi
      rw [ByteArray.toList.loop, if_pos hi, ih, List.drop_eq_getElem_cons hlt, hget,
        List.reverse_cons, List.append_assoc, List.singleton_append]
    | case2 i seen hi =>
      have hle : bs.data.toList.length ≤ i := Nat.not_lt.mp hi
      rw [ByteArray.toList.loop, if_neg hi, List.drop_eq_nil_of_le hle, List.append_nil]
  exact hloop 0 []

theorem utf8ByteSize_ofList_le (cs : List Char) :
    (String.ofList cs).utf8ByteSize ≤ 4 * cs.length := by
  induction cs with
  | nil => exact Nat.le_refl 0
  | cons c rest ih =>
    have hc := c.utf8Size_le_four
    rw [String.ofList_cons, String.utf8ByteSize_append, String.utf8ByteSize_singleton,
      List.length_cons]
    omega

theorem reads_string {s : String} (h : StringFits s) :
    Reads Anything readString (writeString s) s := by
  have hlist : s.toUTF8.toList = s.toByteArray.data.toList := toList_byteArray _
  have hlen : Fits s.toUTF8.toList.length := by
    rw [hlist]
    exact h
  refine (reads_blob hlen).last fun rest _ => ?_
  have hs : String.fromUTF8? ⟨s.toUTF8.toList.toArray⟩ = some s := by
    rw [hlist, String.fromUTF8?]
    exact dif_pos s.isValidUTF8
  simp only [hs]
  rfl

theorem reads_items {l : List α} (h : ∀ a ∈ l, Reads Anything f (w a) a) :
    Reads Anything (readItems f l.length) (l.flatMap w) l := by
  induction l with
  | nil => exact .pure _
  | cons a rest ih =>
    obtain ⟨ha, hrest⟩ := List.forall_mem_cons.mp h
    exact ha.seq ((ih hrest).last (.pure _))

theorem reads_list {l : List α} (hl : Fits l.length) (h : ∀ a ∈ l, Reads Anything f (w a) a) :
    Reads Anything (readList f) (writeList w l) l :=
  (reads_size hl).seq (reads_items h)

theorem reads_strings {l : List String} (h : StringsFit l) :
    Reads Anything (readList readString) (writeList writeString l) l :=
  reads_list h.left fun s hs => reads_string (h.right s hs)

theorem reads_map {m : SortedMap String α} (hm : Fits m.entries.length)
    (hk : ∀ e ∈ m.entries, StringFits e.1) (h : ∀ e ∈ m.entries, Reads Anything f (w e.2) e.2) :
    Reads Anything (readMap f) (writeMap w m) m := by
  have hentries := reads_list (f := readEntry f) (w := fun e => writeString e.1 ++ w e.2) hm
    fun e he => (reads_string (hk e he)).seq ((h e he).last (.pure _))
  have hm := hentries.last (g := fun l => pure (SortedMap.ofList l)) (.pure _)
  rwa [SortedMap.ofList_entries] at hm

end Statechart.Binary
