import Orc.Codec.Frame

/-!
# The byte layout of a record

The layout is stated once, as a function from records to bytes (`payloadBytes`, `frameBytes`), and
both directions of the codec are compared with it. The encoder writes it, and succeeds exactly on
the records whose lengths fit their fields (`encode_eq_ok`). Each reader of the decoder reads the
bytes of its section whatever follows, and accepts nothing else (`reads_readPayload`,
`exact_readPayload`).

So neither of the two is the specification of the other, and a change to the format is a change of
one function here and of the lemma of the section concerned. The encoder is the harder half: it
writes a blank header first and fills it in at the end, in the middle of a buffer that may hold
other frames, and has to leave that buffer as it was when a length does not fit.

`Encodable` collects the conditions under which a row has a frame. They are those of the widths of
the fields and of nothing else; limits of a configuration are checked elsewhere.
-/

namespace Orc

open Bytes

/-! ## The layout -/

/-- A string behind its `u16` length. -/
def str16 (s : String) : Bytes := leBytes 2 (utf8 s).length ++ utf8 s

/-- A string behind its `u32` length. -/
def str32 (s : String) : Bytes := leBytes 4 (utf8 s).length ++ utf8 s

/-- A value behind its tag. -/
def valueBytes (v : Value) : Bytes :=
  v.tag :: match v with
    | .null => []
    | .bool b => [if b then 1 else 0]
    | .i64 i => leBytes 8 i.toUInt64.toNat
    | .f64 bits => leBytes 8 bits.toNat
    | .str s => str32 s

/-- An `extra` pair. -/
def pairBytes (p : String × String) : Bytes := str16 p.1 ++ str16 p.2

/-- The fixed part of a payload. -/
def startBytes (s : FrameStart) : Bytes :=
  leBytes 8 s.ts.toNat ++ (leBytes 4 s.epoch.toNat ++ (str16 s.series ++ str16 s.id))

/-- The fixed part of a record. -/
def RecordRef.start (r : RecordRef) : FrameStart := ⟨r.ts, r.epoch, r.series, r.id⟩

/-- The sections of a record. -/
def payloadBytes (r : RecordRef) : Bytes :=
  startBytes r.start ++ (r.keys.flatMap valueBytes ++
    (leBytes 2 r.extra.length ++ (r.extra.flatMap pairBytes ++ str32 r.data)))

/-- A payload behind its length and checksum. -/
def frameBytes (crc : Bytes → UInt32) (payload : Bytes) : Bytes :=
  leBytes 4 payload.length ++
    (leBytes 4 (crc (leBytes 4 payload.length ++ payload)).toNat ++ payload)

/-- The string fits a `u16` length. -/
def Fits16 (s : String) : Prop := (utf8 s).length ≤ u16Max

/-- The string fits a `u32` length. -/
def Fits32 (s : String) : Prop := (utf8 s).length ≤ u32Max

/-- A string value fits its `u32` length; every other value fits. -/
def ValueFits : Value → Prop
  | .str s => Fits32 s
  | _ => True

/-- The fixed part fits its length fields. -/
structure FrameStart.Fits (s : FrameStart) : Prop where
  series : Fits16 s.series
  id : Fits16 s.id

/-- Every section of the record fits its length field. -/
structure RecordRef.Fits (r : RecordRef) : Prop where
  start : r.start.Fits
  keys : ∀ v ∈ r.keys, ValueFits v
  count : r.extra.length ≤ u16Max
  extra : ∀ p ∈ r.extra, Fits16 p.1 ∧ Fits16 p.2
  data : Fits32 r.data

@[simp] theorem length_str16 (s : String) : (str16 s).length = 2 + (utf8 s).length := by
  simp [str16]

@[simp] theorem length_str32 (s : String) : (str32 s).length = 4 + (utf8 s).length := by
  simp [str32]

theorem minPayloadBytes_le_length (r : RecordRef) :
    minPayloadBytes ≤ (payloadBytes r).length := by
  simp only [payloadBytes, startBytes, List.length_append, length_leBytes, length_str16,
    length_str32, minPayloadBytes]
  omega

@[simp] theorem length_frameBytes (crc : Bytes → UInt32) (payload : Bytes) :
    (frameBytes crc payload).length = frameHeaderBytes + payload.length := by
  simp only [frameBytes, List.length_append, length_leBytes, frameHeaderBytes]
  omega

theorem frameBytes_append (crc : Bytes → UInt32) (payload rest : Bytes) :
    frameBytes crc payload ++ rest = leBytes 4 payload.length ++
      (leBytes 4 (crc (leBytes 4 payload.length ++ payload)).toNat ++ (payload ++ rest)) := by
  simp only [frameBytes, List.append_assoc]

/-! ## The encoder writes the layout -/

theorem emits_putStr16 (s : String) : (putStr16 s).Emits (Fits16 s) (str16 s) :=
  ((Emitter.Emits.guard _ _).seq ((Emitter.Emits.put _).seq (.put _))).congr
    (by simp [Fits16]) (by simp [str16])

theorem emits_putStr32 (s : String) : (putStr32 s).Emits (Fits32 s) (str32 s) :=
  ((Emitter.Emits.guard _ _).seq ((Emitter.Emits.put _).seq (.put _))).congr
    (by simp [Fits32]) (by simp [str32])

private theorem emits_putValue (v : Value) : (putValue v).Emits (ValueFits v) (valueBytes v) := by
  cases v with
  | null => exact ((Emitter.Emits.put _).seq .pure).congr (by simp [ValueFits]) rfl
  | bool b => exact ((Emitter.Emits.put _).seq (.put _)).congr (by simp [ValueFits]) rfl
  | i64 i => exact ((Emitter.Emits.put _).seq (.put _)).congr (by simp [ValueFits]) rfl
  | f64 bits => exact ((Emitter.Emits.put _).seq (.put _)).congr (by simp [ValueFits]) rfl
  | str s =>
    exact ((Emitter.Emits.put _).seq (emits_putStr32 s)).congr (by simp [ValueFits]) rfl

private theorem emits_putPair (p : String × String) :
    (putPair p).Emits (Fits16 p.1 ∧ Fits16 p.2) (pairBytes p) :=
  (emits_putStr16 p.1).seq (emits_putStr16 p.2)

theorem isCanonical_iff {extra : List (String × String)} :
    isCanonical extra = true ↔ extra.Pairwise (fun a b ↦ utf8 a.1 < utf8 b.1) := by
  have : IsTrans (String × String) fun a b ↦ utf8 a.1 < utf8 b.1 := ⟨fun _ _ _ h h' ↦ h.trans h'⟩
  rw [isCanonical, decide_eq_true_iff, List.isChain_iff_pairwise]

theorem canonicalExtra_eq_self {extra : List (String × String)} (h : isCanonical extra = true) :
    canonicalExtra extra = extra :=
  Order.canon_eq_self (isCanonical_iff.1 h)

/-- The record a row is encoded as: stamped, with its extra pairs in canonical form. -/
def stamped (series : String) (epoch : UInt32) (row : Row) : RecordRef :=
  ⟨row.ts, epoch, series, row.id, row.keys, canonicalExtra row.extra, row.data⟩

/-- What the encoder requires of a row: the sections of the stamped record fit, and the count of
extra pairs fits before duplicates collapse. -/
def Encodable (series : String) (epoch : UInt32) (row : Row) : Prop :=
  (stamped series epoch row).Fits ∧ row.extra.length ≤ u16Max

theorem length_canonicalExtra_le (extra : List (String × String)) :
    (canonicalExtra extra).length ≤ extra.length :=
  Order.length_canon_le _ _ extra

private theorem emits_putExtra (extra : List (String × String)) :
    (putExtra extra).Emits
      (extra.length ≤ u16Max ∧ ∀ p ∈ canonicalExtra extra, Fits16 p.1 ∧ Fits16 p.2)
      (leBytes 2 (canonicalExtra extra).length ++ (canonicalExtra extra).flatMap pairBytes) := by
  unfold putExtra
  split_ifs with hc
  · rw [canonicalExtra_eq_self hc]
    exact ((Emitter.Emits.guard _ _).seq ((Emitter.Emits.put _).seq (.each emits_putPair _))).congr
      (by simp) (by simp)
  · exact ((Emitter.Emits.guard _ _).seq ((Emitter.Emits.put _).seq (.each emits_putPair _))).congr
      (by simp) (by simp)

private theorem emits_putPayload (series : String) (epoch : UInt32) (row : Row) :
    (putPayload series epoch row).Emits (Encodable series epoch row)
      (payloadBytes (stamped series epoch row)) := by
  have hall := (Emitter.Emits.put (leBytes 8 row.ts.toNat)).seq
    ((Emitter.Emits.put (leBytes 4 epoch.toNat)).seq
      ((emits_putStr16 series).seq
        ((emits_putStr16 row.id).seq
          ((Emitter.Emits.each emits_putValue row.keys).seq
            ((emits_putExtra row.extra).seq (emits_putStr32 row.data))))))
  refine hall.congr ?_ ?_
  · have hle := length_canonicalExtra_le row.extra
    constructor
    · rintro ⟨-, -, hs, hi, hk, ⟨hn, he⟩, hd⟩
      exact ⟨⟨⟨hs, hi⟩, hk, hle.trans hn, he, hd⟩, hn⟩
    · rintro ⟨⟨⟨hs, hi⟩, hk, -, he, hd⟩, hn⟩
      exact ⟨trivial, trivial, hs, hi, hk, ⟨hn, he⟩, hd⟩
  · simp only [payloadBytes, startBytes, RecordRef.start, stamped, List.append_assoc]

private theorem overwrite_append {a b c b' : Bytes} (h : b.length = b'.length) :
    overwrite (a ++ (b ++ c)) a.length b' = a ++ (b' ++ c) := by
  simp [overwrite, ← h, List.drop_append, List.append_assoc]

private theorem backfill_eq (crc : Bytes → UInt32) (pre payload : Bytes) :
    backfill crc pre.length (pre ++ (List.replicate frameHeaderBytes 0 ++ payload)) =
      if payload.length ≤ u32Max then .ok () (pre ++ frameBytes crc payload)
      else .error (.recordTooLarge payload.length u32Max)
        (pre ++ (List.replicate frameHeaderBytes 0 ++ payload)) := by
  have hlen : (pre ++ (List.replicate frameHeaderBytes 0 ++ payload)).length - pre.length -
      frameHeaderBytes = payload.length := by
    simp only [List.length_append, List.length_replicate]
    omega
  simp only [backfill, get_apply, bind, EStateM.bind, hlen, Emitter.guard]
  split_ifs with h
  · have hblank : List.replicate frameHeaderBytes (0 : UInt8) = leBytes 4 0 ++ leBytes 4 0 := rfl
    have hfill : overwrite (pre ++ (List.replicate frameHeaderBytes 0 ++ payload)) pre.length
        (leBytes 4 payload.length) =
          pre ++ (leBytes 4 payload.length ++ (leBytes 4 0 ++ payload)) := by
      rw [hblank, List.append_assoc]
      exact overwrite_append (by simp)
    have hsum : ((pre ++ (leBytes 4 payload.length ++ (leBytes 4 0 ++ payload))).drop
        pre.length).take 4 ++ (pre ++ (leBytes 4 payload.length ++ (leBytes 4 0 ++ payload))).drop
          (pre.length + frameHeaderBytes) = leBytes 4 payload.length ++ payload := by
      rw [List.drop_left, List.take_left' (length_leBytes 4 _), ← List.append_assoc,
        ← List.append_assoc, List.drop_left' (by simp [frameHeaderBytes])]
    simp only [pure, EStateM.pure, modify_apply, hfill, hsum]
    have hpos : pre.length + 4 = (pre ++ leBytes 4 payload.length).length := by simp
    rw [hpos, ← List.append_assoc, overwrite_append (by simp), List.append_assoc, frameBytes]
  · rfl

section Encode

variable (crc : Bytes → UInt32) (series : String) (epoch : UInt32) (row : Row)

/-- The frame a row is encoded as. -/
def frameOf : Bytes := frameBytes crc (payloadBytes (stamped series epoch row))

/-- **What the encoder writes.** It succeeds exactly when every length fits its field, and has then
appended the frame of the stamped record. -/
theorem emits_encodeInner :
    (encodeInner crc series epoch row).Emits
      (Encodable series epoch row ∧ (payloadBytes (stamped series epoch row)).length ≤ u32Max)
      (frameOf crc series epoch row) := by
  have hput := emits_putPayload series epoch row
  refine ⟨fun ⟨hP, hlen⟩ out ↦ ?_, fun hn out ↦ ?_⟩
  · simp only [encodeInner, get_apply, bind, EStateM.bind, Emitter.put, hput.ok hP,
      List.append_assoc]
    rw [backfill_eq, if_pos hlen, frameOf]
  · by_cases hP : Encodable series epoch row
    · simp only [encodeInner, get_apply, bind, EStateM.bind, Emitter.put, hput.ok hP,
        List.append_assoc]
      rw [backfill_eq, if_neg fun hlen ↦ hn ⟨hP, hlen⟩]
      exact ⟨_, _, rfl⟩
    · obtain ⟨e, c, he⟩ := hput.err hP (out ++ List.replicate frameHeaderBytes 0)
      simp only [encodeInner, get_apply, bind, EStateM.bind, Emitter.put, he,
        List.append_assoc]
      exact ⟨_, _, rfl⟩

theorem encode_eq_ok {out out' : Bytes} :
    encode crc series epoch row out = .ok () out' ↔
      (Encodable series epoch row ∧ (payloadBytes (stamped series epoch row)).length ≤ u32Max) ∧
        out' = out ++ frameOf crc series epoch row := by
  have hinner := emits_encodeInner crc series epoch row
  by_cases hP : Encodable series epoch row ∧
      (payloadBytes (stamped series epoch row)).length ≤ u32Max
  · simp [encode, hinner.ok hP, hP, eq_comm]
  · obtain ⟨e, c, he⟩ := hinner.err hP out
    simp [encode, he, hP]

/-- A failed encode has cut off what it wrote. -/
theorem encode_eq_error {out out' : Bytes} {err : Error}
    (h : encode crc series epoch row out = .error err out') : out' = out := by
  have hinner := emits_encodeInner crc series epoch row
  by_cases hP : Encodable series epoch row ∧
      (payloadBytes (stamped series epoch row)).length ≤ u32Max
  · rw [encode, hinner.ok hP] at h
    cases h
  · obtain ⟨e, c, he⟩ := hinner.err hP out
    rw [encode, he] at h
    cases h
    exact List.take_left

end Encode

/-! ## The decoder reads the layout -/

theorem reads_readUtf8 (s : String) : Cursor.Reads (readUtf8 (utf8 s).length) (utf8 s) s := by
  rw [← List.append_nil (utf8 s)]
  refine (Cursor.Reads.take overrun ?_).bind ?_
  · rw [List.append_nil]
  · rw [fromUtf8_utf8]
    exact .pure s

theorem reads_readStr16 {s : String} (h : Fits16 s) : Cursor.Reads readStr16 (str16 s) s := by
  unfold Fits16 u16Max at h
  exact (Cursor.Reads.le overrun (by omega)).bind (reads_readUtf8 s)

theorem reads_readStr32 {s : String} (h : Fits32 s) : Cursor.Reads readStr32 (str32 s) s := by
  unfold Fits32 u32Max at h
  exact (Cursor.Reads.le overrun (by omega)).bind (reads_readUtf8 s)

private theorem reads_tag (v : Value) : Cursor.Reads (Cursor.le overrun 1) [v.tag] v.tag.toNat := by
  cases v <;> exact Cursor.Reads.le overrun (n := 1) (by decide)

private theorem reads_readValue {v : Value} (h : ValueFits v) :
    Cursor.Reads readValue (valueBytes v) v := by
  cases v with
  | null => exact (reads_tag .null).bind (.pure _)
  | bool b =>
    refine (reads_tag (.bool b)).bind (c := [if b then 1 else 0]) ?_
    cases b with
    | false =>
      exact (Cursor.Reads.le overrun (n := 1) (v := 0) (by decide)).bind (c := []) (.pure _)
    | true => exact (Cursor.Reads.le overrun (n := 1) (v := 1) (by decide)).bind (c := []) (.pure _)
  | i64 i =>
    refine (reads_tag (.i64 i)).bind (c := leBytes 8 i.toUInt64.toNat) ?_
    have h := (Cursor.Reads.le overrun (n := 8) i.toUInt64.toNat_lt).map
      (fun n ↦ Value.i64 (UInt64.ofNat n).toInt64)
    rwa [UInt64.ofNat_toNat, Int64.toInt64_toUInt64] at h
  | f64 bits =>
    refine (reads_tag (.f64 bits)).bind (c := leBytes 8 bits.toNat) ?_
    have h := (Cursor.Reads.le overrun (n := 8) bits.toNat_lt).map
      (fun n ↦ Value.f64 (UInt64.ofNat n))
    rwa [UInt64.ofNat_toNat] at h
  | str s => exact (reads_tag (.str s)).bind (c := str32 s) ((reads_readStr32 h).map Value.str)

private theorem reads_readPair {p : String × String} (h : Fits16 p.1 ∧ Fits16 p.2) :
    Cursor.Reads readPair (pairBytes p) p :=
  (reads_readStr16 h.1).bind ((reads_readStr16 h.2).bindPure (p.1, ·))

theorem reads_readStart {s : FrameStart} (h : s.Fits) :
    Cursor.Reads readStart (startBytes s) s := by
  have hread : Cursor.Reads readStart (startBytes s)
      ⟨UInt64.ofNat s.ts.toNat, UInt32.ofNat s.epoch.toNat, s.series, s.id⟩ :=
    (Cursor.Reads.le overrun s.ts.toNat_lt).bind
      ((Cursor.Reads.le overrun s.epoch.toNat_lt).bind
        ((reads_readStr16 h.series).bind ((reads_readStr16 h.id).bindPure _)))
  rwa [UInt64.ofNat_toNat, UInt32.ofNat_toNat] at hread

theorem reads_readSortKey {s : FrameStart} (h : s.Fits) :
    Cursor.Reads readSortKey (startBytes s) (s.ts, utf8 s.id) := by
  have hseries := h.series
  have hid := h.id
  unfold Fits16 u16Max at hseries hid
  have hread : Cursor.Reads readSortKey
      (leBytes 8 s.ts.toNat ++ (leBytes 4 s.epoch.toNat ++ (leBytes 2 (utf8 s.series).length ++
        (utf8 s.series ++ (leBytes 2 (utf8 s.id).length ++ utf8 s.id)))))
      (UInt64.ofNat s.ts.toNat, utf8 s.id) :=
    (Cursor.Reads.le overrun s.ts.toNat_lt).bind
      ((Cursor.Reads.le overrun s.epoch.toNat_lt).bind
        ((Cursor.Reads.le overrun (by omega)).bind ((Cursor.Reads.take overrun rfl).bind
          ((Cursor.Reads.le overrun (by omega)).bind
            ((Cursor.Reads.take overrun rfl).bindPure _)))))
  rw [UInt64.ofNat_toNat] at hread
  simpa only [startBytes, str16, List.append_assoc] using hread

theorem reads_readPayload {r : RecordRef} (h : r.Fits) :
    Cursor.Reads (readPayload r.keys.length) (payloadBytes r) r := by
  have hcount : r.extra.length < 256 ^ 2 := by
    have := h.count
    unfold u16Max at this
    omega
  exact (reads_readStart h.start).bind
    ((Cursor.Reads.many fun v hv ↦ reads_readValue (h.keys v hv)).bind
      ((Cursor.Reads.le overrun hcount).bind
        ((Cursor.Reads.many fun p hp ↦ reads_readPair (h.extra p hp)).bind
          ((reads_readStr32 h.data).bindPure
            (RecordRef.mk r.ts r.epoch r.series r.id r.keys r.extra)))))

/-! ## The decoder accepts nothing else -/

theorem exact_readUtf8 (n : ℕ) :
    Cursor.Exact (readUtf8 n) (fun s ↦ (utf8 s).length = n) utf8 := by
  intro s rest t h
  obtain ⟨b, mid, hb, hs⟩ := Cursor.bind_eq_ok.1 h
  obtain ⟨rfl, hlen⟩ := Cursor.take_eq_ok.1 hb
  cases hutf8 : fromUtf8 b with
  | none =>
    rw [hutf8] at hs
    exact absurd hs Cursor.throw_ne_ok
  | some u =>
    rw [hutf8] at hs
    obtain ⟨rfl, rfl⟩ := Cursor.pure_eq_ok.1 hs
    obtain rfl := fromUtf8_eq_some.1 hutf8
    exact ⟨rfl, hlen⟩

theorem exact_readStr16 : Cursor.Exact readStr16 Fits16 str16 := by
  intro s rest t h
  obtain ⟨n, mid, hn, hs⟩ := Cursor.bind_eq_ok.1 h
  obtain ⟨rfl, hlt⟩ := Cursor.Exact.le overrun 2 hn
  obtain ⟨rfl, rfl⟩ := exact_readUtf8 n hs
  exact ⟨by rw [str16, List.append_assoc], by unfold Fits16 u16Max; omega⟩

theorem exact_readStr32 : Cursor.Exact readStr32 Fits32 str32 := by
  intro s rest t h
  obtain ⟨n, mid, hn, hs⟩ := Cursor.bind_eq_ok.1 h
  obtain ⟨rfl, hlt⟩ := Cursor.Exact.le overrun 4 hn
  obtain ⟨rfl, rfl⟩ := exact_readUtf8 n hs
  exact ⟨by rw [str32, List.append_assoc], by unfold Fits32 u32Max; omega⟩

private theorem exact_readValue : Cursor.Exact readValue ValueFits valueBytes := by
  intro s rest v h
  obtain ⟨t, mid, ht, hv⟩ := Cursor.bind_eq_ok.1 h
  obtain ⟨rfl, -⟩ := Cursor.Exact.le overrun 1 ht
  split at hv
  next =>
    obtain ⟨rfl, rfl⟩ := Cursor.pure_eq_ok.1 hv
    exact ⟨rfl, trivial⟩
  next =>
    obtain ⟨b, mid', hb, hbool⟩ := Cursor.bind_eq_ok.1 hv
    obtain ⟨rfl, -⟩ := Cursor.Exact.le overrun 1 hb
    split at hbool
    next =>
      obtain ⟨rfl, rfl⟩ := Cursor.pure_eq_ok.1 hbool
      exact ⟨rfl, trivial⟩
    next =>
      obtain ⟨rfl, rfl⟩ := Cursor.pure_eq_ok.1 hbool
      exact ⟨rfl, trivial⟩
    next => exact absurd hbool Cursor.throw_ne_ok
  next =>
    obtain ⟨n, hn, rfl⟩ := Cursor.map_eq_ok.1 hv
    obtain ⟨rfl, hlt⟩ := Cursor.Exact.le overrun 8 hn
    refine ⟨?_, trivial⟩
    rw [valueBytes, UInt64.toUInt64_toInt64, UInt64.toNat_ofNat_of_lt' hlt]
    rfl
  next =>
    obtain ⟨n, hn, rfl⟩ := Cursor.map_eq_ok.1 hv
    obtain ⟨rfl, hlt⟩ := Cursor.Exact.le overrun 8 hn
    refine ⟨?_, trivial⟩
    rw [valueBytes, UInt64.toNat_ofNat_of_lt' hlt]
    rfl
  next =>
    obtain ⟨t, ht, rfl⟩ := Cursor.map_eq_ok.1 hv
    obtain ⟨rfl, hfits⟩ := exact_readStr32 ht
    exact ⟨rfl, hfits⟩
  next => exact absurd hv Cursor.throw_ne_ok

private theorem exact_readPair :
    Cursor.Exact readPair (fun p ↦ Fits16 p.1 ∧ Fits16 p.2) pairBytes := by
  intro s rest p h
  obtain ⟨name, mid, hname, h⟩ := Cursor.bind_eq_ok.1 h
  obtain ⟨value, mid', hvalue, h⟩ := Cursor.bind_eq_ok.1 h
  obtain ⟨rfl, rfl⟩ := Cursor.pure_eq_ok.1 h
  obtain ⟨rfl, hfits⟩ := exact_readStr16 hname
  obtain ⟨rfl, hfits'⟩ := exact_readStr16 hvalue
  exact ⟨by rw [pairBytes, List.append_assoc], hfits, hfits'⟩

theorem exact_readStart : Cursor.Exact readStart FrameStart.Fits startBytes := by
  intro s rest a h
  obtain ⟨ts, mid, hts, h⟩ := Cursor.bind_eq_ok.1 h
  obtain ⟨epoch, mid, hepoch, h⟩ := Cursor.bind_eq_ok.1 h
  obtain ⟨series, mid, hseries, h⟩ := Cursor.bind_eq_ok.1 h
  obtain ⟨id, mid, hid, h⟩ := Cursor.bind_eq_ok.1 h
  obtain ⟨rfl, rfl⟩ := Cursor.pure_eq_ok.1 h
  obtain ⟨rfl, htslt⟩ := Cursor.Exact.le overrun 8 hts
  obtain ⟨rfl, hepochlt⟩ := Cursor.Exact.le overrun 4 hepoch
  obtain ⟨rfl, hfits⟩ := exact_readStr16 hseries
  obtain ⟨rfl, hfits'⟩ := exact_readStr16 hid
  refine ⟨?_, hfits, hfits'⟩
  rw [startBytes, UInt64.toNat_ofNat_of_lt' htslt, UInt32.toNat_ofNat_of_lt' hepochlt]
  simp only [List.append_assoc]

theorem exact_readPayload (keyCount : ℕ) :
    Cursor.Exact (readPayload keyCount) (fun r ↦ r.Fits ∧ r.keys.length = keyCount)
      payloadBytes := by
  intro s rest r h
  obtain ⟨a, mid, ha, h⟩ := Cursor.bind_eq_ok.1 h
  obtain ⟨keys, mid, hkeys, h⟩ := Cursor.bind_eq_ok.1 h
  obtain ⟨n, mid, hn, h⟩ := Cursor.bind_eq_ok.1 h
  obtain ⟨extra, mid, hextra, h⟩ := Cursor.bind_eq_ok.1 h
  obtain ⟨data, mid, hdata, h⟩ := Cursor.bind_eq_ok.1 h
  obtain ⟨rfl, rfl⟩ := Cursor.pure_eq_ok.1 h
  obtain ⟨rfl, hstart⟩ := exact_readStart ha
  obtain ⟨rfl, hlen, hkeysFit⟩ := exact_readValue.many keyCount hkeys
  obtain ⟨rfl, hnlt⟩ := Cursor.Exact.le overrun 2 hn
  obtain ⟨rfl, rfl, hextraFit⟩ := exact_readPair.many n hextra
  obtain ⟨rfl, hdataFit⟩ := exact_readStr32 hdata
  have hcount : extra.length ≤ u16Max := by
    unfold u16Max
    omega
  refine ⟨?_, ⟨hstart, hkeysFit, hcount, hextraFit, hdataFit⟩, hlen⟩
  simp only [payloadBytes, RecordRef.start, List.append_assoc]

end Orc
