import Orc.Codec.RoundTrip

/-!
# Frames decoded with another key count

A frame does not say how many key values it holds; the reader supplies the count of the schema it
looks up. Read with another count, the sections behind the fixed part shift against each other, and
the decoder relies on them to overrun the payload or to leave bytes over.

That is not always so. The sections of a record may be the sections of another record with another
number of keys (`Row.ReadsAs`), and then the decoder returns that one. Otherwise the frame is
corrupt (`wrong_key_count_corrupt_iff`). `Row.ReadsAs` is about the bytes of the sections and not
about a run of the decoder: whether a row can be misread is a property of its values, and a user who
wants to be safe has to look at those.

Nothing is in the way of the misreading as far as the checksum goes. It is taken over the payload
whatever the payload is read as, so it holds for the other record as well.
-/

namespace Orc

open Bytes

/-! ## Whole payloads fail as corrupt -/

/-- The bytes contradict each other, as opposed to ending too early. -/
def DecodeError.IsCorrupt (e : DecodeError) : Prop := ∃ reason, e = .corrupt reason

theorem overrun_isCorrupt : overrun.IsCorrupt := ⟨_, rfl⟩

theorem readUtf8_fails (n : ℕ) : Cursor.FailsWith DecodeError.IsCorrupt (readUtf8 n) := by
  refine (Cursor.FailsWith.take overrun_isCorrupt n).bind fun bytes ↦ ?_
  cases fromUtf8 bytes with
  | some s => exact .pure s
  | none => exact .throw ⟨_, rfl⟩

theorem readStr16_fails : Cursor.FailsWith DecodeError.IsCorrupt readStr16 :=
  (Cursor.FailsWith.le overrun_isCorrupt 2).bind readUtf8_fails

theorem readStr32_fails : Cursor.FailsWith DecodeError.IsCorrupt readStr32 :=
  (Cursor.FailsWith.le overrun_isCorrupt 4).bind readUtf8_fails

private theorem readValue_fails : Cursor.FailsWith DecodeError.IsCorrupt readValue := by
  refine (Cursor.FailsWith.le overrun_isCorrupt 1).bind fun t ↦ ?_
  split
  · exact .pure _
  · refine (Cursor.FailsWith.le overrun_isCorrupt 1).bind fun b ↦ ?_
    split
    · exact .pure _
    · exact .pure _
    · exact .throw ⟨_, rfl⟩
  · exact (Cursor.FailsWith.le overrun_isCorrupt 8).map _
  · exact (Cursor.FailsWith.le overrun_isCorrupt 8).map _
  · exact readStr32_fails.map _
  · exact .throw ⟨_, rfl⟩

private theorem readPair_fails : Cursor.FailsWith DecodeError.IsCorrupt readPair :=
  readStr16_fails.bind fun _ ↦ readStr16_fails.bind fun _ ↦ .pure _

private theorem readStart_fails : Cursor.FailsWith DecodeError.IsCorrupt readStart :=
  (Cursor.FailsWith.le overrun_isCorrupt 8).bind fun _ ↦
    (Cursor.FailsWith.le overrun_isCorrupt 4).bind fun _ ↦
      readStr16_fails.bind fun _ ↦ readStr16_fails.bind fun _ ↦ .pure _

private theorem readPayload_fails (keyCount : ℕ) :
    Cursor.FailsWith DecodeError.IsCorrupt (readPayload keyCount) :=
  readStart_fails.bind fun _ ↦ (readValue_fails.many keyCount).bind fun _ ↦
    (Cursor.FailsWith.le overrun_isCorrupt 2).bind fun n ↦ (readPair_fails.many n).bind fun _ ↦
      readStr32_fails.bind fun _ ↦ .pure _

private theorem decode_frameBytes_fails {crc : Bytes → UInt32} {payload : Bytes}
    {keyCount maxRecordBytes : ℕ} {e : DecodeError} (hmin : minPayloadBytes ≤ payload.length)
    (hu32 : payload.length ≤ u32Max)
    (h : decode crc (frameBytes crc payload) keyCount maxRecordBytes = .error e) : e.IsCorrupt := by
  by_cases hmax : payload.length ≤ maxRecordBytes
  · have hpayload : framePayload crc (frameBytes crc payload) maxRecordBytes =
        .ok (payload, frameHeaderBytes + payload.length) :=
      framePayload_eq_ok.2 ⟨[], (List.append_nil _).symm, ⟨hmin, hmax, hu32⟩, rfl⟩
    rw [decode, hpayload] at h
    change decodePayload payload _ keyCount = .error e at h
    rw [decodePayload] at h
    cases hread : readPayload keyCount payload with
    | error e' =>
      rw [hread] at h
      obtain rfl := Except.error.inj h
      exact readPayload_fails keyCount hread
    | ok r =>
      rw [hread] at h
      change (if r.2.isEmpty then _ else _) = _ at h
      by_cases hend : r.2.isEmpty
      · rw [if_pos hend] at h
        cases h
      · rw [if_neg hend] at h
        obtain rfl := Except.error.inj h
        exact ⟨_, rfl⟩
  · have hlen : leNat ((frameBytes crc payload).take 4) = payload.length := by
      rw [frameBytes, List.take_left' (length_leBytes 4 _),
        leNat_leBytes_of_lt (by unfold u32Max at hu32; omega)]
    have hextent : frameExtent (frameBytes crc payload) maxRecordBytes =
        .error (.corrupt "length over max_record_bytes") := by
      simp only [frameExtent, hlen]
      rw [if_neg (by rw [length_frameBytes]; omega), if_neg (by omega), if_pos (by omega)]
    rw [decode, framePayload, hextent] at h
    obtain rfl := Except.error.inj h
    exact ⟨_, rfl⟩

/-! ## Rows that read as others -/

/-- The sections behind the fixed part, which a reader cuts by the key count. -/
def bodyBytes (keys : List Value) (extra : List (String × String)) (data : String) : Bytes :=
  keys.flatMap valueBytes ++ (leBytes 2 extra.length ++ (extra.flatMap pairBytes ++ str32 data))

/-- Some sections with `n` key values, each fitting its length field, are the bytes of the row's
own sections. Every row that encodes reads as itself, with its own number of keys. -/
def Row.ReadsAs (row : Row) (n : ℕ) : Prop :=
  ∃ keys extra data, keys.length = n ∧ (∀ v ∈ keys, ValueFits v) ∧ extra.length ≤ u16Max ∧
    (∀ p ∈ extra, Fits16 p.1 ∧ Fits16 p.2) ∧ Fits32 data ∧
    bodyBytes keys extra data = bodyBytes row.keys (canonicalExtra row.extra) row.data

/-- The fixed part has one reading, so two records with the same payload differ behind it only. -/
theorem startBytes_append_inj {s t : FrameStart} {b c : Bytes} (hs : s.Fits) (ht : t.Fits)
    (h : startBytes s ++ b = startBytes t ++ c) : s = t ∧ b = c := by
  have hread := reads_readStart hs b
  rw [h, reads_readStart ht c] at hread
  injection hread with hread
  injection hread with h1 h2
  exact ⟨h1.symm, h2.symm⟩

/-- A stamped row decodes with `n` keys, under any limit that admits its payload, exactly when its
sections read as some with `n` keys. -/
theorem decode_frameOf_iff_readsAs (crc : Bytes → UInt32) {series : String} {epoch : UInt32}
    {row : Row} (hfits : (stamped series epoch row).Fits)
    (hlen : (payloadBytes (stamped series epoch row)).length ≤ u32Max) (n maxRecordBytes : ℕ) :
    (∃ r m, decode crc (frameOf crc series epoch row) n maxRecordBytes = .ok (r, m)) ↔
      row.ReadsAs n ∧ (payloadBytes (stamped series epoch row)).length ≤ maxRecordBytes := by
  constructor
  · rintro ⟨r, m, h⟩
    obtain ⟨rest, hbuf, hr, hcount, hadm, -⟩ := decode_eq_ok.1 h
    have hpayload := frameBytes_append_inj ⟨minPayloadBytes_le_length _, hlen, hlen⟩ hadm
      ((List.append_nil (frameOf crc series epoch row)).trans hbuf)
    obtain ⟨-, hbody⟩ := startBytes_append_inj hfits.start hr.start hpayload
    refine ⟨⟨r.keys, r.extra, r.data, hcount, hr.keys, hr.count, hr.extra, hr.data, ?_⟩, ?_⟩
    · exact hbody.symm
    · rw [hpayload]
      exact hadm.max
  · rintro ⟨⟨keys, extra, data, hcount, hkeys, hextra, hpairs, hdata, hbody⟩, hmax⟩
    have hpayload : payloadBytes ⟨row.ts, epoch, series, row.id, keys, extra, data⟩ =
        payloadBytes (stamped series epoch row) :=
      congrArg (startBytes (stamped series epoch row).start ++ ·) hbody
    refine ⟨⟨row.ts, epoch, series, row.id, keys, extra, data⟩, _,
      decode_eq_ok.2 ⟨[], ?_, ?_, hcount, ?_, rfl⟩⟩
    · rw [hpayload, List.append_nil, frameOf]
    · exact ⟨hfits.start, hkeys, hextra, hpairs, hdata⟩
    · rw [hpayload]
      exact ⟨minPayloadBytes_le_length _, hmax, hlen⟩

/-- **Wrong key counts.** A frame the encoder wrote decodes to `Corrupt` under a key count exactly
when the limit refuses its payload or its sections do not read as some with that many keys. -/
theorem wrong_key_count_corrupt_iff {crc : Bytes → UInt32} {series : String} {epoch : UInt32}
    {row : Row} {frame : Bytes} (h : encode crc series epoch row [] = .ok () frame)
    (n maxRecordBytes : ℕ) :
    (∃ reason, decode crc frame n maxRecordBytes = .error (.corrupt reason)) ↔
      (frame.length ≤ frameHeaderBytes + maxRecordBytes → ¬ row.ReadsAs n) := by
  obtain ⟨⟨⟨hfits, -⟩, hlen⟩, rfl⟩ := (encode_eq_ok crc series epoch row).1 h
  have hiff := decode_frameOf_iff_readsAs crc hfits hlen n maxRecordBytes
  rw [List.nil_append, show (frameOf crc series epoch row).length =
    frameHeaderBytes + (payloadBytes (stamped series epoch row)).length from length_frameBytes _ _]
  constructor
  · rintro ⟨reason, hcorrupt⟩ hmax hreads
    obtain ⟨r, m, hok⟩ := hiff.2 ⟨hreads, by omega⟩
    rw [hcorrupt] at hok
    cases hok
  · intro hnot
    cases hdecode : decode crc (frameOf crc series epoch row) n maxRecordBytes with
    | error e =>
      obtain ⟨reason, rfl⟩ := decode_frameBytes_fails (minPayloadBytes_le_length _) hlen hdecode
      exact ⟨reason, rfl⟩
    | ok r =>
      obtain ⟨hreads, hmax⟩ := hiff.1 ⟨r.1, r.2, hdecode⟩
      exact absurd hreads (hnot (by omega))

/-- The row the source's test samples. -/
private def threeKeys : Row := ⟨1, "i", [.i64 1, .i64 2, .i64 3], [("a", "b")], "d"⟩

/-- The sampled row reads as no row with two or with four keys. -/
theorem wrong_key_count_corrupt_iff_three : ¬ threeKeys.ReadsAs 2 ∧ ¬ threeKeys.ReadsAs 4 := by
  have hencode : encode crc32 "s" 1 threeKeys [] = .ok () (frameOf crc32 "s" 1 threeKeys) := by
    decide +kernel
  have hsize : (frameOf crc32 "s" 1 threeKeys).length ≤ frameHeaderBytes + 100 := by decide +kernel
  have hcorrupt : ∀ n ∈ [2, 4], decode crc32 (frameOf crc32 "s" 1 threeKeys) n 100 =
      .error (.corrupt "section runs past the end of the frame") := by
    decide +kernel
  constructor
  · exact (wrong_key_count_corrupt_iff hencode 2 100).1 ⟨_, hcorrupt 2 (by decide)⟩ hsize
  · exact (wrong_key_count_corrupt_iff hencode 4 100).1 ⟨_, hcorrupt 4 (by decide)⟩ hsize

/-- A row with one integer key, `2 ^ 56`: seven zero bytes and a one. -/
private def plausibleKey : Row := ⟨1, "i", [.i64 (2 ^ 56)], [], "d"⟩

/-- Read with no keys, the tag of the key counts two extra pairs and its value is their bytes: the
decoder returns a record that was never written. -/
theorem wrong_key_count_accepted :
    encode crc32 "s" 1 plausibleKey [] = .ok () (frameOf crc32 "s" 1 plausibleKey) ∧
      plausibleKey.keys.length ≠ 0 ∧
      decode crc32 (frameOf crc32 "s" 1 plausibleKey) 0 100 =
        .ok (⟨1, 1, "s", "i", [], [("", ""), ("", "\x00")], "d"⟩,
          (frameOf crc32 "s" 1 plausibleKey).length) := by
  decide +kernel

end Orc
