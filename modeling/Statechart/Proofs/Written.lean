import Statechart.Proofs.Binary
import Statechart.Proofs.JsonText
import Statechart.Proofs.Timestamps
import Statechart.Script.Context

-- A checkpoint is read as it was written, from either form. Its version decides whether it is
-- accepted.

namespace Statechart

namespace Uuid

variable {gs : List Nat} {cs : List Char}

theorem length_hyphenated (h : cs.length = gs.sum) :
    (hyphenated gs cs).length = cs.length + (gs.length - 1) := by
  induction gs, cs using hyphenated.induct with
  | case1 cs => simpa [hyphenated] using h.symm
  | case2 n cs =>
    have hn : cs.length = n := by simpa using h
    simp [hyphenated, hn]
  | case3 n more cs hmore ih =>
    rw [List.sum_cons] at h
    have hpos := List.length_pos_of_ne_nil hmore
    have hrest := ih (by rw [List.length_drop]; omega)
    simp only [hyphenated, List.length_append, List.length_cons, hrest, List.length_take,
      List.length_drop]
    omega

-- The hyphens that are put between the groups are taken out again.
theorem withoutHyphens?_hyphenated (h : cs.length = gs.sum) :
    withoutHyphens? gs (hyphenated gs cs) = some cs := by
  induction gs, cs using hyphenated.induct with
  | case1 cs =>
    obtain rfl := List.eq_nil_of_length_eq_zero h
    rfl
  | case2 n cs =>
    have hn : cs.length = n := by simpa using h
    rw [hyphenated, List.take_of_length_le (Nat.le_of_eq hn), withoutHyphens?, if_pos hn]
  | case3 n more cs hmore ih =>
    rw [List.sum_cons] at h
    have hrest := ih (by rw [List.length_drop]; omega)
    have hlen : (cs.take n).length = n := by
      rw [List.length_take]
      omega
    simp only [hyphenated, withoutHyphens?, List.drop_left' hlen, List.take_left' hlen, hrest,
      Option.map_some, List.take_append_drop]

theorem length_ofBytes (bs : List UInt8) : (Hex.ofBytes bs).length = 2 * bs.length := by
  induction bs with
  | nil => rfl
  | cons b rest ih =>
    have hcons : Hex.ofBytes (b :: rest) = Hex.ofByte b ++ Hex.ofBytes rest := rfl
    rw [hcons, List.length_append, ih, List.length_cons]
    change 2 + _ = _
    omega

-- A scheme does not start with a digit.
theorem not_scheme (u : Uuid) : ((hyphenated groups (Hex.ofBytes u.bytes)).take scheme.length).map
    Char.toLower ≠ scheme := by
  have hall : ∀ n < 16, (Hex.digit n).toLower ≠ 'u' := by decide
  have hlen := u.length_eq
  cases hbs : u.bytes with
  | nil => simp [hbs] at hlen
  | cons b rest =>
    intro h
    have hhead := congrArg List.head? h
    have hb := b.toNat_lt
    exact hall (b.toNat / 16) (by omega) (Option.some.inj hhead)

theorem ofBytes?_bytes (u : Uuid) : ofBytes? u.bytes = some u := dif_pos u.length_eq

theorem parse?_text (u : Uuid) : parse? u.text = some u := by
  have hhex : (Hex.ofBytes u.bytes).length = groups.sum := by rw [length_ofBytes, u.length_eq]; rfl
  have hlen := length_hyphenated hhex
  rw [hhex] at hlen
  have hdigits : digits? (hyphenated groups (Hex.ofBytes u.bytes)) =
      some (Hex.ofBytes u.bytes) := by
    rw [digits?, hlen, if_neg (by decide), if_neg (by decide), if_neg u.not_scheme,
      withoutHyphens?_hyphenated hhex]
  rw [parse?, text, String.toList_ofList, hdigits, Option.bind_some, Hex.bytes?_ofBytes,
    Option.bind_some, ofBytes?_bytes]

end Uuid

namespace Document

variable {α β : Type} {f : Document → Option α}

theorem mapM_eq_some_map {f : α → Option β} {g : α → β} {l : List α}
    (h : ∀ a ∈ l, f a = some (g a)) : l.mapM f = some (l.map g) := by
  induction l with
  | nil => rfl
  | cons a rest ih =>
    obtain ⟨ha, hrest⟩ := List.forall_mem_cons.mp h
    rw [List.mapM_cons, ha, ih hrest]
    rfl

theorem string?_str (s : String) : (Json.str s).document.string? = some s := rfl

theorem list?_strings (l : List String) : (Json.strings l).document.list? string? = some l := by
  have h := mapM_eq_some_map (f := fun s => string? (Json.str s).document) (g := id) (l := l)
    fun _ _ => rfl
  rw [List.map_id] at h
  rw [Json.strings, Json.document, list?, Json.documents_eq, List.mapM_map, List.mapM_map]
  exact h

theorem entries?_map (w : α → Json) {m : SortedMap String α}
    (h : ∀ e ∈ m.entries, f (w e.2).document = some e.2) :
    (Json.obj (m.entries.map fun e => (e.1, w e.2))).document.entries? f = some m.entries := by
  rw [Json.document, entries?, Json.documentFields_eq, List.mapM_map, List.mapM_map]
  conv_rhs => rw [← List.map_id m.entries]
  refine mapM_eq_some_map fun e he => ?_
  simp [h e he]

-- Where no key is repeated, one entry has it.
theorem filter_key {l : List (String × β)} {e : String × β} (hd : (l.map (·.1)).Nodup)
    (he : e ∈ l) : l.filter (·.1 = e.1) = [e] := by
  induction l with
  | nil => cases he
  | cons a rest ih =>
    obtain ⟨ha, hrest⟩ := List.nodup_cons.mp hd
    rcases List.mem_cons.mp he with rfl | he
    case inl =>
      have hnone : rest.filter (·.1 = e.1) = [] := by
        refine List.filter_eq_nil_iff.mpr fun b hb h => ha ?_
        exact List.mem_map.mpr ⟨b, hb, of_decide_eq_true h⟩
      rw [List.filter_cons_of_pos (by simp), hnone]
    case inr =>
      have hne : a.1 ≠ e.1 := fun h => ha (List.mem_map.mpr ⟨e, he, h.symm⟩)
      rw [List.filter_cons_of_neg (by simpa using hne), ih hrest he]

theorem record?_fields {fields : List (String × Json)} (hd : (fields.map (·.1)).Nodup) :
    (Json.obj fields).document.record? (fields.map (·.1)) =
      some (fields.map fun e => some e.2.document) := by
  rw [Json.document, record?, Json.documentFields_eq, if_neg (by simp), List.mapM_map]
  refine mapM_eq_some_map fun e he => ?_
  have hfilter : (fields.map fun e => (some e.1, e.2.document)).filter (·.1 = some e.1) =
      [(some e.1, e.2.document)] := by
    rw [List.filter_map]
    have hkey : ((fun b : Option String × Document => decide (b.1 = some e.1)) ∘
        fun e : String × Json => (some e.1, e.2.document)) = fun b => decide (b.1 = e.1) := by
      funext b
      simp
    rw [hkey, filter_key hd he, List.map_singleton]
  simp only [Function.comp, hfilter]

end Document

-- What is written of a context is read back, where the sizes of its parts can be written down.
structure Written.Lawful (C : Type) [Written C] (A : C → Prop) : Prop where
  ofDocument?_document (x : C) : Written.ofDocument? (Written.toJson x).document = some x
  reads_toBytes (x : C) (h : A x) : Reads Anything Written.reader (Written.toBytes x) x

open Binary

namespace Script.Context

structure Addressable (x : Context) : Prop where
  count : Fits x.vars.entries.length
  names : ∀ e ∈ x.vars.entries, StringFits e.1
  trace : StringsFit x.trace

theorem int64?_toInt (n : Int64) : int64? (.int n.toInt) = some n := by
  have hge := n.minValue_le_toInt
  have hle := n.toInt_le
  rw [int64?, Document.intWithin?, if_pos (by omega), Option.map_some, Int64.ofInt_toInt]

theorem ofDocument?_document (x : Context) : ofDocument? x.toJson.document = some x := by
  have hrecord : x.toJson.document.record? ["vars", "trace"] =
      some [some x.varsToJson.document, some (Json.strings x.trace).document] :=
    Document.record?_fields (show ["vars", "trace"].Nodup by decide)
  have hvars : x.varsToJson.document.entries? int64? = some x.vars.entries :=
    Document.entries?_map (fun n => .int n.toInt) fun e _ => int64?_toInt e.2
  simp only [ofDocument?, hrecord, hvars, Document.list?_strings, Option.bind_eq_bind,
    Option.bind_some, SortedMap.ofList_entries, Option.pure_def]

theorem reads_toBytes (x : Context) (h : x.Addressable) : Reads Anything reader x.toBytes x :=
  (reads_map h.count h.names fun e _ => reads_int64 e.2).seq
    ((reads_strings h.trace).last (.pure _))

theorem lawful : Written.Lawful Context Addressable := ⟨ofDocument?_document, reads_toBytes⟩

end Script.Context

theorem Timestamp.stringFits_text (t : Timestamp) : StringFits t.text := by
  have hsize := utf8ByteSize_ofList_le t.chars
  have hlen := t.length_chars_le
  have hlimit : 4 * 64 < UInt64.size := by decide
  rw [StringFits, Fits, text]
  omega

namespace Checkpoint

section

variable {C : Type} [Written C] {A : C → Prop}

theorem ofDocument?_document (hC : Written.Lawful C A) (c : Checkpoint C) :
    ofDocument? c.toJson.document = some c := by
  have hnames : fieldNames.Nodup := by decide
  have hrecord : c.toJson.document.record? fieldNames = some [
      some (Json.int c.version.toNat).document, some (Json.str c.id.text).document,
      some (Json.str c.timestamp.text).document, some (Json.str c.machineId).document,
      some (Json.strings c.configuration).document,
      some (Json.obj (c.history.entries.map fun e => (e.1, .strings e.2))).document,
      some (Written.toJson c.context).document, some (Json.bool c.done).document] :=
    Document.record?_fields hnames
  have hversion : (Json.int c.version.toNat).document.natBelow? UInt32.size =
      some c.version.toNat := if_pos c.version.toNat_lt
  have hid : Uuid.ofDocument? (Json.str c.id.text).document = some c.id := by
    rw [Uuid.ofDocument?, Document.string?_str, Option.bind_some, c.id.parse?_text]
  have htimestamp : Timestamp.ofDocument? (Json.str c.timestamp.text).document =
      some c.timestamp := by
    rw [Timestamp.ofDocument?, Document.string?_str, Option.bind_some, c.timestamp.parse?_text]
  have hhistory := Document.entries?_map Json.strings fun e (_ : e ∈ c.history.entries) =>
    Document.list?_strings e.2
  have hdone : (Json.bool c.done).document.bool? = some c.done := rfl
  rw [ofDocument?, hrecord]
  simp only [hversion, hid, htimestamp, hhistory, hdone, hC.ofDocument?_document,
    Document.string?_str, Document.list?_strings, Option.bind_eq_bind, Option.bind_some,
    SortedMap.ofList_entries, Option.pure_def, UInt32.ofNat_toNat]

theorem parse?_text (hC : Written.Lawful C A) (c : Checkpoint C) :
    parse? c.text = some c ∧ parse? c.prettyText = some c := by
  obtain ⟨hcompact, hindented⟩ := Document.parse?_text c.toJson
  have hdocument := ofDocument?_document hC c
  constructor
  case left => rw [parse?, text, hcompact, Option.bind_some, hdocument]
  case right => rw [parse?, prettyText, hindented, Option.bind_some, hdocument]

-- Every size in a checkpoint can be written down.
structure Addressable (A : C → Prop) (c : Checkpoint C) : Prop where
  machineId : StringFits c.machineId
  configuration : StringsFit c.configuration
  records : Fits c.history.entries.length
  history : ∀ e ∈ c.history.entries, StringFits e.1 ∧ StringsFit e.2
  context : A c.context

theorem reads_present {α : Type} {o : Option α} {a : α} (h : o = some a) :
    Statechart.Reads Anything (present o) [] a := by
  rw [h]
  exact .pure a

theorem reads_toBytes (hC : Written.Lawful C A) (c : Checkpoint C) (h : c.Addressable A) :
    Statechart.Reads Anything reader c.toBytes c := by
  have hid : Fits c.id.bytes.length := by
    rw [c.id.length_eq, Fits]
    decide
  have hhistory : Statechart.Reads Anything (readMap (readList readString))
      (writeMap (writeList writeString) c.history) c.history :=
    reads_map h.records (fun e he => (h.history e he).left)
      fun e he => reads_strings (h.history e he).right
  simp only [toBytes, List.append_assoc]
  exact (reads_uint32 c.version).seq <| (reads_blob hid).seq <|
    (reads_present c.id.ofBytes?_bytes).first <| (reads_string c.timestamp.stringFits_text).seq <|
    (reads_present c.timestamp.parse?_text).first <| (reads_string h.machineId).seq <|
    (reads_strings h.configuration).seq <| hhistory.seq <|
    (hC.reads_toBytes c.context h.context).seq <| (reads_bool c.done).last (.pure _)

-- Only the version is left to be checked, and what comes after the bytes does not matter.
theorem ofText_text (hC : Written.Lawful C A) (c : Checkpoint C) :
    ofText c.text = c.checkVersion ∧ ofText c.prettyText = c.checkVersion := by
  obtain ⟨hcompact, hindented⟩ := parse?_text hC c
  constructor
  case left => rw [ofText, hcompact]
  case right => rw [ofText, hindented]

theorem ofBytes_toBytes (hC : Written.Lawful C A) (c : Checkpoint C) (h : c.Addressable A)
    (rest : Bytes) : ofBytes (c.toBytes ++ rest) = c.checkVersion := by
  rw [ofBytes, reads_toBytes hC c h rest trivial]

end

open Script (Context)

-- Nothing but its version stands between a checkpoint and what is read of it. Sizes are written in
-- 64 bits, and only in bytes.
theorem round_trips (c : Checkpoint Context) :
    (c.version = 1 →
      ofText c.text = .ok c ∧ ofText c.prettyText = .ok c ∧
      (c.Addressable Context.Addressable → ofBytes c.toBytes = .ok c)) ∧
    (c.version ≠ 1 →
      ofText (C := Context) c.text = .error (.unsupportedVersion c.version) ∧
      ofText (C := Context) c.prettyText = .error (.unsupportedVersion c.version) ∧
      (c.Addressable Context.Addressable →
        ofBytes (C := Context) c.toBytes = .error (.unsupportedVersion c.version))) := by
  obtain ⟨hcompact, hindented⟩ := ofText_text Context.lawful c
  have hbytes (h : c.Addressable Context.Addressable) : ofBytes c.toBytes = c.checkVersion := by
    have h := ofBytes_toBytes Context.lawful c h []
    rwa [List.append_nil] at h
  constructor
  case left =>
    intro hv
    have hcheck : c.checkVersion = .ok c := if_pos hv
    rw [hcheck] at hcompact hindented hbytes
    exact ⟨hcompact, hindented, hbytes⟩
  case right =>
    intro hv
    have hcheck : c.checkVersion = .error (.unsupportedVersion c.version) := if_neg hv
    rw [hcheck] at hcompact hindented hbytes
    exact ⟨hcompact, hindented, hbytes⟩

def boiling (version : UInt32) : Checkpoint Context where
  version := version
  id := ⟨[0, 1, 2, 3, 4, 5, 6, 7, 8, 9, 10, 11, 12, 13, 14, 255], by decide⟩
  timestamp := ⟨⟨-44, 2, 29, by decide, by decide, by decide, by decide, by decide, by decide⟩,
    1439, 60, 1000, by decide, by decide, by decide⟩
  machineId := "kettle"
  configuration := ["kettle", "kettle.boiling"]
  history := .ofList [("kettle.\"recent\"", ["kettle.90°"])]
  context := ⟨.ofList [("boiled", -3)], ["on\n"]⟩
  done := false

theorem round_trips_boiling :
    (boiling 1).Addressable Context.Addressable ∧
      ofText (boiling 1).text = .ok (boiling 1) ∧
      ofText (boiling 1).prettyText = .ok (boiling 1) ∧
      ofBytes (boiling 1).toBytes = .ok (boiling 1) ∧
    (boiling 2).Addressable Context.Addressable ∧
      ofText (C := Context) (boiling 2).text = .error (.unsupportedVersion 2) ∧
      ofText (C := Context) (boiling 2).prettyText = .error (.unsupportedVersion 2) ∧
      ofBytes (C := Context) (boiling 2).toBytes = .error (.unsupportedVersion 2) := by
  have hsizes : (boiling 1).Addressable Context.Addressable :=
    ⟨by decide, by decide, by decide, by decide, ⟨by decide, by decide, by decide⟩⟩
  have hsizes' : (boiling 2).Addressable Context.Addressable :=
    ⟨hsizes.machineId, hsizes.configuration, hsizes.records, hsizes.history, hsizes.context⟩
  obtain ⟨hcompact, hindented, hbytes⟩ := (round_trips (boiling 1)).left rfl
  obtain ⟨hcompact', hindented', hbytes'⟩ := (round_trips (boiling 2)).right (by decide)
  exact ⟨hsizes, hcompact, hindented, hbytes hsizes, hsizes', hcompact', hindented',
    hbytes' hsizes'⟩

end Checkpoint

end Statechart
