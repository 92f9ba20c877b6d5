import Orc.Codec.Layout

/-!
# Frames: delimiting, decoding and the round trip

Each function that looks at a frame from the outside is characterised by what it accepts:
`frameExtent`, `framePayload` and `validatePrefix` accept the buffers that start with a frame of an
admissible length, and `decode` those that start with the frame of the record it returns. The codec
round trip is that last characterisation read in both directions.

An equation for what is accepted says more than a round trip. It also says what is not accepted, and
it can be rewritten with: later modules never unfold a reader, they rewrite with `decode_eq_ok` and
its siblings and are left with statements about `frameBytes`.

One direction of the round trip needs a condition. The encoder puts the extra pairs of a row into
canonical order and drops repeated names, so a record decoded from bytes that another encoder wrote
is encoded to the same bytes only if its names were strictly increasing already.

`readers_agree` compares the four readers on one frame. They are written separately in the program
and called at different stages, so a frame that one of them takes and another does not would be
accepted at the door and lost at the flush.
-/

namespace Orc

open Bytes

/-! ### Headers -/

theorem parseCommonHeader_append (body rest : Bytes) :
    parseCommonHeader (leBytes 4 magic ++ leBytes 2 formatVersion ++ body ++ rest)
      (6 + body.length) = .ok body := by
  have hlen : (leBytes 4 magic ++ leBytes 2 formatVersion ++ body).length = 6 + body.length := by
    simp only [List.length_append, length_leBytes]
  have hmagic : (leBytes 4 magic ++ leBytes 2 formatVersion ++ body ++ rest).take 4 =
      leBytes 4 magic := by
    rw [List.append_assoc, List.append_assoc, List.take_left' (length_leBytes 4 _)]
  have hversion : ((leBytes 4 magic ++ leBytes 2 formatVersion ++ body ++ rest).drop 4).take 2 =
      leBytes 2 formatVersion := by
    rw [List.append_assoc, List.append_assoc, List.drop_left' (length_leBytes 4 _),
      List.take_left' (length_leBytes 2 _)]
  have hbody : (leBytes 4 magic ++ leBytes 2 formatVersion ++ body).drop 6 = body :=
    List.drop_left' (by simp only [List.length_append, length_leBytes])
  rw [parseCommonHeader, if_neg (by rw [List.length_append, hlen]; omega), hmagic, hversion,
    leNat_leBytes_of_lt (by decide), leNat_leBytes_of_lt (by decide), if_neg (by simp),
    if_neg (by simp), List.take_left' hlen, hbody]

theorem parseBatchHeader_append (count : ℕ) (rest : Bytes) :
    parseBatchHeader (encodeBatchHeader count ++ rest) = .ok (count % 2 ^ 32) := by
  have h := parseCommonHeader_append (leBytes 4 count) rest
  rw [length_leBytes] at h
  rw [parseBatchHeader, encodeBatchHeader, batchHeaderBytes, h]
  change Except.ok (leNat ((leBytes 4 count).take 4)) = _
  rw [List.take_of_length_le (length_leBytes 4 _).le, leNat_leBytes,
    show 256 ^ 4 = 2 ^ 32 by decide]

theorem parseSegmentHeader_append (id : ℕ) (rest : Bytes) :
    parseSegmentHeader (encodeSegmentHeader id ++ rest) = .ok (id % 2 ^ 64) := by
  have h := parseCommonHeader_append (leBytes 8 id) rest
  rw [length_leBytes] at h
  rw [parseSegmentHeader, encodeSegmentHeader, segmentHeaderBytes, h]
  change Except.ok (leNat ((leBytes 8 id).take 8)) = _
  rw [List.take_of_length_le (length_leBytes 8 _).le, leNat_leBytes,
    show 256 ^ 8 = 2 ^ 64 by decide]

theorem segmentHeaderBytes_le_length {b : Bytes} {id : ℕ} (h : parseSegmentHeader b = .ok id) :
    segmentHeaderBytes ≤ b.length := by
  by_contra hshort
  rw [parseSegmentHeader, parseCommonHeader, if_pos (not_le.1 hshort)] at h
  cases h

/-- A header is parsed from its own bytes. -/
theorem parseSegmentHeader_take {n : ℕ} (b : Bytes) (hn : segmentHeaderBytes ≤ n) :
    parseSegmentHeader (b.take n) = parseSegmentHeader b := by
  have h4 : (b.take n).take 4 = b.take 4 := by
    rw [List.take_take, Nat.min_eq_left (by unfold segmentHeaderBytes at hn; omega)]
  have h2 : ((b.take n).drop 4).take 2 = (b.drop 4).take 2 := by
    rw [List.drop_take, List.take_take,
      Nat.min_eq_left (by unfold segmentHeaderBytes at hn; omega)]
  have hall : (b.take n).take segmentHeaderBytes = b.take segmentHeaderBytes := by
    rw [List.take_take, Nat.min_eq_left hn]
  by_cases hle : b.length ≤ n
  · rw [List.take_of_length_le hle]
  · have hlen : (b.take n).length = n := by rw [List.length_take]; omega
    rw [parseSegmentHeader, parseSegmentHeader, parseCommonHeader, parseCommonHeader, h4, h2, hall,
      if_neg (by omega : ¬ (b.take n).length < segmentHeaderBytes),
      if_neg (by omega : ¬ b.length < segmentHeaderBytes)]

/-- The payload lengths a reader with bound `maxRecordBytes` admits. -/
structure Admissible (maxRecordBytes : ℕ) (payload : Bytes) : Prop where
  min : minPayloadBytes ≤ payload.length
  max : payload.length ≤ maxRecordBytes
  u32 : payload.length ≤ u32Max

theorem Admissible.mono {m m' : ℕ} {payload : Bytes} (h : Admissible m payload) (hm : m ≤ m') :
    Admissible m' payload := ⟨h.min, h.max.trans hm, h.u32⟩

theorem frameExtent_eq_ok {buf payload : Bytes} {maxRecordBytes n : ℕ} :
    frameExtent buf maxRecordBytes = .ok (payload, n) ↔
      ∃ sum rest, sum.length = 4 ∧ buf = leBytes 4 payload.length ++ (sum ++ (payload ++ rest)) ∧
        Admissible maxRecordBytes payload ∧ n = frameHeaderBytes + payload.length := by
  constructor
  · intro h
    simp only [frameExtent] at h
    split_ifs at h with h8 hmin hmax hlen
    simp only [Except.ok.injEq, Prod.mk.injEq] at h
    obtain ⟨rfl, rfl⟩ := h
    simp only [frameHeaderBytes, not_lt] at h8 hlen ⊢
    have htake : (buf.take 4).length = 4 := List.length_take_of_le (by omega)
    have hpay : ((buf.drop (4 + 4)).take (leNat (buf.take 4))).length = leNat (buf.take 4) :=
      List.length_take_of_le (by rw [List.length_drop]; omega)
    have hu32 := leNat_lt (buf.take 4)
    rw [htake] at hu32
    refine ⟨(buf.drop 4).take 4, (buf.drop (4 + 4)).drop (leNat (buf.take 4)), ?_, ?_, ?_, ?_⟩
    · exact List.length_take_of_le (by rw [List.length_drop]; omega)
    · rw [hpay, leBytes_leNat_of_length htake, List.take_append_drop, ← List.drop_drop,
        List.take_append_drop, List.take_append_drop]
    · exact ⟨by rw [hpay]; omega, by rw [hpay]; omega, by rw [hpay]; unfold u32Max; omega⟩
    · rw [hpay]
  · rintro ⟨sum, rest, hsum, rfl, hadm, rfl⟩
    have hlt : payload.length < 256 ^ 4 := by
      have := hadm.u32
      unfold u32Max at this
      omega
    have htake : leNat ((leBytes 4 payload.length ++ (sum ++ (payload ++ rest))).take 4) =
        payload.length := by
      rw [List.take_left' (length_leBytes _ _), leNat_leBytes_of_lt hlt]
    have hmin := hadm.min
    have hmax := hadm.max
    have hdrop : (leBytes 4 payload.length ++ (sum ++ (payload ++ rest))).drop frameHeaderBytes =
        payload ++ rest := by
      rw [← List.append_assoc]
      exact List.drop_left' (by simp [hsum, frameHeaderBytes])
    simp only [frameExtent, htake, hdrop, List.take_left]
    rw [if_neg, if_neg (by omega), if_neg (by omega), if_neg]
    · simp only [List.length_append, length_leBytes, hsum, frameHeaderBytes]
      omega
    · simp only [List.length_append, length_leBytes, hsum, frameHeaderBytes]
      omega

section Checksum

variable {crc : Bytes → UInt32}

/-- **Delimiting.** A frame is accepted when the buffer starts with a payload of admissible length
behind its own length and checksum. -/
theorem framePayload_eq_ok {buf payload : Bytes} {maxRecordBytes n : ℕ} :
    framePayload crc buf maxRecordBytes = .ok (payload, n) ↔
      ∃ rest, buf = frameBytes crc payload ++ rest ∧ Admissible maxRecordBytes payload ∧
        n = frameHeaderBytes + payload.length := by
  rw [framePayload, Except.bind_eq_ok]
  constructor
  · rintro ⟨⟨payload', n'⟩, hext, h⟩
    obtain ⟨sum, rest, hsum, rfl, hadm, rfl⟩ := frameExtent_eq_ok.1 hext
    simp only [List.take_left' (length_leBytes 4 payload'.length),
      List.drop_left' (length_leBytes 4 payload'.length), List.take_left' hsum] at h
    split_ifs at h with hcrc
    simp only [pure, Except.pure, Except.ok.injEq, Prod.mk.injEq] at h
    obtain ⟨rfl, rfl⟩ := h
    refine ⟨rest, ?_, hadm, rfl⟩
    rw [frameBytes, not_ne_iff.1 hcrc, leBytes_leNat_of_length hsum]
    simp only [List.append_assoc]
  · rintro ⟨rest, rfl, hadm, rfl⟩
    refine ⟨(payload, frameHeaderBytes + payload.length), ?_, ?_⟩
    · rw [frameExtent_eq_ok]
      exact ⟨leBytes 4 (crc (leBytes 4 payload.length ++ payload)).toNat, rest, length_leBytes 4 _,
        frameBytes_append crc payload rest, hadm, rfl⟩
    · have hcrc : (crc (leBytes 4 payload.length ++ payload)).toNat < 256 ^ 4 :=
        (crc (leBytes 4 payload.length ++ payload)).toNat_lt
      simp only [frameBytes, List.append_assoc, List.take_left' (length_leBytes 4 payload.length),
        List.drop_left' (length_leBytes 4 payload.length), List.take_left' (length_leBytes 4 _),
        leNat_leBytes_of_lt hcrc]
      rw [if_neg (not_ne_iff.2 rfl)]
      rfl

/-- A buffer starts with at most one frame. -/
theorem frameBytes_append_inj {m m' : ℕ} {payload payload' rest rest' : Bytes}
    (h : Admissible m payload) (h' : Admissible m' payload')
    (heq : frameBytes crc payload ++ rest = frameBytes crc payload' ++ rest') :
    payload = payload' := by
  have hread : framePayload crc (frameBytes crc payload ++ rest) u32Max =
      .ok (payload, frameHeaderBytes + payload.length) :=
    framePayload_eq_ok.2 ⟨rest, rfl, ⟨h.min, h.u32, h.u32⟩, rfl⟩
  rw [heq, framePayload_eq_ok.2 ⟨rest', rfl, ⟨h'.min, h'.u32, h'.u32⟩, rfl⟩] at hread
  exact (Prod.ext_iff.1 (Except.ok.inj hread)).1.symm

theorem validatePrefix_eq_ok {buf : Bytes} {maxRecordBytes : ℕ} {p : FramePrefix} :
    validatePrefix crc buf maxRecordBytes = .ok p ↔
      ∃ more rest, buf = frameBytes crc (startBytes p.toFrameStart ++ more) ++ rest ∧
        p.toFrameStart.Fits ∧ Admissible maxRecordBytes (startBytes p.toFrameStart ++ more) ∧
        p.frameLen = frameHeaderBytes + (startBytes p.toFrameStart ++ more).length := by
  simp only [validatePrefix, Except.bind_eq_ok, Prod.exists, framePayload_eq_ok]
  constructor
  · rintro ⟨payload, n, ⟨rest, rfl, hadm, rfl⟩, s, more, hs, h⟩
    obtain ⟨rfl, hfits⟩ := exact_readStart hs
    simp only [pure, Except.pure, Except.ok.injEq] at h
    subst h
    exact ⟨more, rest, rfl, hfits, hadm, rfl⟩
  · rintro ⟨more, rest, rfl, hfits, hadm, hlen⟩
    refine ⟨_, _, ⟨rest, rfl, hadm, rfl⟩, p.toFrameStart, more, reads_readStart hfits more, ?_⟩
    rw [← hlen]
    rfl

/-- The body of a frame is read to its end. -/
private theorem decodePayload_eq_ok {payload : Bytes} {frameLen keyCount n : ℕ} {r : RecordRef} :
    decodePayload payload frameLen keyCount = .ok (r, n) ↔
      payload = payloadBytes r ∧ r.Fits ∧ r.keys.length = keyCount ∧ n = frameLen := by
  simp only [decodePayload, Except.bind_eq_ok, Prod.exists]
  constructor
  · rintro ⟨r', more, hr, h⟩
    obtain ⟨rfl, hfits, hkeys⟩ := exact_readPayload keyCount hr
    split_ifs at h with hmore
    simp only [pure, Except.pure, Except.ok.injEq, Prod.mk.injEq] at h
    obtain ⟨rfl, rfl⟩ := h
    rw [List.isEmpty_iff] at hmore
    subst hmore
    exact ⟨List.append_nil _, hfits, hkeys, rfl⟩
  · rintro ⟨rfl, hfits, rfl, rfl⟩
    have hread := reads_readPayload hfits []
    rw [List.append_nil] at hread
    exact ⟨r, [], hread, rfl⟩

/-- **What the decoder accepts**: the buffers that start with the frame of the record returned. -/
theorem decode_eq_ok {buf : Bytes} {keyCount maxRecordBytes n : ℕ} {r : RecordRef} :
    decode crc buf keyCount maxRecordBytes = .ok (r, n) ↔
      ∃ rest, buf = frameBytes crc (payloadBytes r) ++ rest ∧ r.Fits ∧ r.keys.length = keyCount ∧
        Admissible maxRecordBytes (payloadBytes r) ∧
        n = frameHeaderBytes + (payloadBytes r).length := by
  simp only [decode, Except.bind_eq_ok, Prod.exists, framePayload_eq_ok, decodePayload_eq_ok]
  constructor
  · rintro ⟨_, _, ⟨rest, rfl, hadm, rfl⟩, rfl, hfits, hkeys, rfl⟩
    exact ⟨rest, rfl, hfits, hkeys, hadm, rfl⟩
  · rintro ⟨rest, rfl, hfits, hkeys, hadm, rfl⟩
    exact ⟨_, _, ⟨rest, rfl, hadm, rfl⟩, rfl, hfits, hkeys, rfl⟩

/-- A frame that decodes validates, with the same fixed part and the same length. -/
theorem validatePrefix_of_decode {buf : Bytes} {keyCount maxRecordBytes n : ℕ} {r : RecordRef}
    (h : decode crc buf keyCount maxRecordBytes = .ok (r, n)) :
    validatePrefix crc buf maxRecordBytes = .ok ⟨r.start, n⟩ := by
  obtain ⟨rest, hbuf, hfits, -, hadm, rfl⟩ := decode_eq_ok.1 h
  exact validatePrefix_eq_ok.2 ⟨_, rest, hbuf, hfits.start, hadm, rfl⟩

/-! ### Frames already verified -/

/-- **What the decoder without a checksum accepts**: the same, behind any four bytes. -/
theorem decodeVerified_eq_ok {buf : Bytes} {keyCount n : ℕ} {r : RecordRef} :
    decodeVerified buf keyCount = .ok (r, n) ↔
      ∃ sum rest, sum.length = 4 ∧
        buf = leBytes 4 (payloadBytes r).length ++ (sum ++ (payloadBytes r ++ rest)) ∧ r.Fits ∧
        r.keys.length = keyCount ∧ (payloadBytes r).length ≤ u32Max ∧
        n = frameHeaderBytes + (payloadBytes r).length := by
  simp only [decodeVerified, Except.bind_eq_ok, Prod.exists, frameExtent_eq_ok,
    decodePayload_eq_ok]
  constructor
  · rintro ⟨_, _, ⟨sum, rest, hsum, rfl, hadm, rfl⟩, rfl, hfits, hkeys, rfl⟩
    exact ⟨sum, rest, hsum, rfl, hfits, hkeys, hadm.u32, rfl⟩
  · rintro ⟨sum, rest, hsum, rfl, hfits, hkeys, hlen, rfl⟩
    exact ⟨_, _, ⟨sum, rest, hsum, rfl, ⟨minPayloadBytes_le_length r, hlen, hlen⟩, rfl⟩, rfl, hfits,
      hkeys, rfl⟩

/-- A frame is decoded again without its checksum, whatever follows it. -/
theorem decodeVerified_frameBytes (crc : Bytes → UInt32) {r : RecordRef} (hfits : r.Fits)
    (hlen : (payloadBytes r).length ≤ u32Max) (rest : Bytes) :
    decodeVerified (frameBytes crc (payloadBytes r) ++ rest) r.keys.length =
      .ok (r, frameHeaderBytes + (payloadBytes r).length) :=
  decodeVerified_eq_ok.2
    ⟨_, rest, length_leBytes 4 _, frameBytes_append crc _ rest, hfits, rfl, hlen, rfl⟩

/-- The sort key of a frame is that of its record, whatever follows it. -/
theorem verifiedSortKey_frameBytes (crc : Bytes → UInt32) {r : RecordRef} (hfits : r.Fits)
    (hlen : (payloadBytes r).length ≤ u32Max) (rest : Bytes) :
    verifiedSortKey (frameBytes crc (payloadBytes r) ++ rest) =
      .ok (r.ts, utf8 r.id, frameHeaderBytes + (payloadBytes r).length) := by
  have hextent : frameExtent (frameBytes crc (payloadBytes r) ++ rest) u32Max =
      .ok (payloadBytes r, frameHeaderBytes + (payloadBytes r).length) :=
    frameExtent_eq_ok.2 ⟨_, rest, length_leBytes 4 _, frameBytes_append crc _ rest,
      ⟨minPayloadBytes_le_length r, hlen, hlen⟩, rfl⟩
  simp only [verifiedSortKey, hextent, bind, Except.bind]
  rw [payloadBytes, reads_readSortKey hfits.start]
  rfl

end Checksum

/-! ## The round trip -/

/-- `canon` is the canonical form of `extra`: strictly increasing names, so one pair per name, and
of each name the pair of least value. Names and values are compared bytewise. -/
structure IsCanonicalForm (extra canon : List (String × String)) : Prop where
  sorted : canon.Pairwise fun a b ↦ utf8 a.1 < utf8 b.1
  mem_iff : ∀ p, p ∈ canon ↔ p ∈ extra ∧ ∀ q ∈ extra, q.1 = p.1 → utf8 p.2 ≤ utf8 q.2

theorem isCanonicalForm_canonicalExtra (extra : List (String × String)) :
    IsCanonicalForm extra (canonicalExtra extra) := by
  have hranked : Order.Ranked (fun p : String × String ↦ utf8 p.1) (fun p ↦ utf8 p.2) extra :=
    fun a _ b _ h h' ↦ Prod.ext (utf8_injective h) (utf8_injective h')
  refine ⟨Order.pairwise_canon _ _ extra, fun p ↦ ?_⟩
  rw [canonicalExtra, Order.mem_canon hranked]
  simp only [utf8_inj]

/-- **Codec round trip.** A row that encodes is decoded back, with its extra pairs in canonical form
and the number of bytes appended, whatever follows the frame; and a record decoded with strictly
increasing extra names encodes to the bytes it was decoded from. -/
theorem decode_encode_round_trip (crc : Bytes → UInt32) :
    (∀ series epoch row out out', encode crc series epoch row out = .ok () out' →
      ∃ frame extra, out' = out ++ frame ∧ IsCanonicalForm row.extra extra ∧
        ∀ maxRecordBytes rest, frame.length - frameHeaderBytes ≤ maxRecordBytes →
          decode crc (frame ++ rest) row.keys.length maxRecordBytes =
            .ok (⟨row.ts, epoch, series, row.id, row.keys, extra, row.data⟩, frame.length)) ∧
    (∀ buf keyCount maxRecordBytes r n,
      decode crc buf keyCount maxRecordBytes = .ok (r, n) →
      r.extra.Pairwise (fun a b ↦ utf8 a.1 < utf8 b.1) →
      ∀ out, encode crc r.series r.epoch r.row out = .ok () (out ++ buf.take n)) := by
  refine ⟨fun series epoch row out out' h ↦ ?_, fun buf keyCount m r n h hsorted out ↦ ?_⟩
  · obtain ⟨⟨⟨hfits, -⟩, hlen⟩, rfl⟩ := (encode_eq_ok crc series epoch row).1 h
    refine ⟨_, canonicalExtra row.extra, rfl, isCanonicalForm_canonicalExtra row.extra, ?_⟩
    intro m rest hm
    rw [frameOf, length_frameBytes, Nat.add_sub_cancel_left] at hm
    rw [decode_eq_ok]
    exact ⟨rest, rfl, hfits, rfl, ⟨minPayloadBytes_le_length _, hm, hlen⟩, length_frameBytes _ _⟩
  · obtain ⟨rest, rfl, hfits, -, hadm, rfl⟩ := decode_eq_ok.1 h
    have hstamp : stamped r.series r.epoch r.row = r := by
      rw [stamped, RecordRef.row, canonicalExtra_eq_self (isCanonical_iff.2 hsorted)]
    rw [encode_eq_ok, Encodable, frameOf, hstamp]
    refine ⟨⟨⟨hfits, hfits.count⟩, hadm.u32⟩, ?_⟩
    rw [List.take_left' (length_frameBytes _ _)]

/-- A frame of series `t`, epoch 3, one `bool` key and the extra pair `v = 1`. -/
private def sampleFrame : Bytes :=
  [31, 0, 0, 0, 27, 8, 245, 117, 7, 0, 0, 0, 0, 0, 0, 0, 3, 0, 0, 0, 1, 0, 116, 0, 0, 1, 1, 1, 0,
    1, 0, 118, 1, 0, 49, 0, 0, 0, 0]

/-- Both directions at one frame; the row repeats an extra name, which collapses to its least
value. -/
theorem decode_encode_round_trip_sample :
    (∃ frame extra, sampleFrame = [] ++ frame ∧
      IsCanonicalForm [("v", "2"), ("v", "1")] extra ∧
        ∀ maxRecordBytes rest, frame.length - frameHeaderBytes ≤ maxRecordBytes →
          decode crc32 (frame ++ rest) 1 maxRecordBytes =
            .ok (⟨7, 3, "t", "", [.bool true], extra, ""⟩, frame.length)) ∧
    encode crc32 "t" 3 ⟨7, "", [.bool true], [("v", "1")], ""⟩ [9] =
      .ok () ([9] ++ (sampleFrame ++ [5]).take 39) :=
  ⟨(decode_encode_round_trip crc32).1 "t" 3 ⟨7, "", [.bool true], [("v", "2"), ("v", "1")], ""⟩ []
      sampleFrame (by decide +kernel),
    (decode_encode_round_trip crc32).2 (sampleFrame ++ [5]) 1 100
      ⟨7, 3, "t", "", [.bool true], [("v", "1")], ""⟩ 39 (by decide +kernel) (by simp) [9]⟩

/-! ## The four readers -/

/-- The checksum stored in a frame of `n` bytes is that of its length and its payload. -/
def SumMatches (crc : Bytes → UInt32) (buf : Bytes) (n : ℕ) : Prop :=
  (crc (buf.take 4 ++ (buf.take n).drop frameHeaderBytes)).toNat = leNat ((buf.drop 4).take 4)

/-- **The four frame readers agree.** A frame that decodes is also read by the other three, from the
same buffer and from its own bytes whatever follows them: by `validatePrefix` with the same fixed
part and length, by `decodeVerified` with the same record, and by `verifiedSortKey` with the
timestamp and the id of the record. Conversely a frame read by `decodeVerified` is decoded to the
same record if its checksum matches and the bound admits it. -/
theorem readers_agree (crc : Bytes → UInt32) (buf : Bytes) (keyCount maxRecordBytes : ℕ)
    (r : RecordRef) (n : ℕ) :
    (decode crc buf keyCount maxRecordBytes = .ok (r, n) →
      validatePrefix crc buf maxRecordBytes = .ok ⟨⟨r.ts, r.epoch, r.series, r.id⟩, n⟩ ∧
      decodeVerified buf keyCount = .ok (r, n) ∧ verifiedSortKey buf = .ok (r.ts, utf8 r.id, n) ∧
      ∀ rest, decodeVerified (buf.take n ++ rest) keyCount = .ok (r, n) ∧
        verifiedSortKey (buf.take n ++ rest) = .ok (r.ts, utf8 r.id, n)) ∧
    (decodeVerified buf keyCount = .ok (r, n) → SumMatches crc buf n →
      n - frameHeaderBytes ≤ maxRecordBytes →
      decode crc buf keyCount maxRecordBytes = .ok (r, n)) := by
  refine ⟨fun h ↦ ?_, fun h hsum hmax ↦ ?_⟩
  · have hvalid := validatePrefix_of_decode h
    obtain ⟨rest, rfl, hfits, rfl, hadm, rfl⟩ := decode_eq_ok.1 h
    rw [List.take_left' (length_frameBytes _ _)]
    exact ⟨hvalid, decodeVerified_frameBytes crc hfits hadm.u32 rest,
      verifiedSortKey_frameBytes crc hfits hadm.u32 rest, fun rest ↦
        ⟨decodeVerified_frameBytes crc hfits hadm.u32 rest,
          verifiedSortKey_frameBytes crc hfits hadm.u32 rest⟩⟩
  · obtain ⟨sum, rest, hlen, rfl, hfits, hkeys, hu32, rfl⟩ := decodeVerified_eq_ok.1 h
    rw [Nat.add_sub_cancel_left] at hmax
    have hhead : (leBytes 4 (payloadBytes r).length ++ sum).length = frameHeaderBytes := by
      rw [List.length_append, length_leBytes, hlen]
      rfl
    have htake : (leBytes 4 (payloadBytes r).length ++ (sum ++ (payloadBytes r ++ rest))).take
        (frameHeaderBytes + (payloadBytes r).length) =
          leBytes 4 (payloadBytes r).length ++ sum ++ payloadBytes r := by
      rw [← List.append_assoc, ← List.append_assoc]
      exact List.take_left' (by rw [List.length_append, hhead])
    -- so the four bytes are the checksum, and the buffer starts with the frame
    have hcrc : sum =
      leBytes 4 (crc (leBytes 4 (payloadBytes r).length ++ payloadBytes r)).toNat := by
      rw [SumMatches, htake, List.drop_left' hhead, List.take_left' (length_leBytes 4 _),
        List.drop_left' (length_leBytes 4 _), List.take_left' hlen] at hsum
      rw [hsum, leBytes_leNat_of_length hlen]
    refine decode_eq_ok.2 ⟨rest, ?_, hfits, hkeys, ⟨minPayloadBytes_le_length r, hmax, hu32⟩, rfl⟩
    rw [frameBytes, ← hcrc, List.append_assoc, List.append_assoc]

/-- Both directions at the sample frame, with a byte behind it. -/
theorem readers_agree_sample :
    (decodeVerified (sampleFrame ++ [5]) 1 =
        .ok (⟨7, 3, "t", "", [.bool true], [("v", "1")], ""⟩, 39) ∧
      verifiedSortKey (sampleFrame ++ [5]) = .ok (7, utf8 "", 39)) ∧
    decode crc32 (sampleFrame ++ [5]) 1 100 =
      .ok (⟨7, 3, "t", "", [.bool true], [("v", "1")], ""⟩, 39) := by
  obtain ⟨hall, hback⟩ := readers_agree crc32 (sampleFrame ++ [5]) 1 100
    ⟨7, 3, "t", "", [.bool true], [("v", "1")], ""⟩ 39
  obtain ⟨-, hverified, hkey, -⟩ := hall (by decide +kernel)
  have hsum : SumMatches crc32 (sampleFrame ++ [5]) 39 := by
    unfold SumMatches
    decide +kernel
  exact ⟨⟨hverified, hkey⟩, hback hverified hsum (by decide)⟩

end Orc
