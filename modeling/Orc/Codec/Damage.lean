import Orc.Bytes.Crc
import Orc.Codec.Cut

/-!
# Damaged frames

Two kinds of damage to a stream of encoded frames. If the stream is cut off, a reader returns the
frames in front of the cut and then finds the clean end or an incomplete frame: no check fires on
the beginning of a good frame (`cut_stream_classified`). If one byte of a frame is changed outside
the length field, the frame is found corrupt, because the checksum differs (`byte_damage_corrupt`).

The length field is left out for a reason. A changed length makes the reader look at other bytes,
and what it finds then depends on what follows the frame; all that can be said is that the checksum,
which covers the length, will most likely differ, and that is no theorem. Behind the length field
the frame delimited is still the one that was written, with one byte changed, and CRC-32 finds a
change of one byte always (`Bytes.crc32_ne`).

The cut is classified for two readers at once, the one that decodes and the one that only validates
the fixed part, since recovery uses the second and the flush the first.
-/

namespace Orc

open Bytes

/-! ## Scanning -/

/-- Read frames one after the other: those read, and the error that ended the scan unless it came to
the end of the buffer. Every frame has a byte, so the length of the buffer is enough fuel. -/
def scan {α : Type} (read : Bytes → Except DecodeError (α × ℕ)) :
    ℕ → Bytes → List (α × ℕ) × Option DecodeError
  | 0, _ => ([], none)
  | fuel + 1, buf =>
    if buf.isEmpty then
      ([], none)
    else
      match read buf with
      | .error e => ([], some e)
      | .ok (a, n) =>
        let (as, e) := scan read fuel (buf.drop n)
        ((a, n) :: as, e)

/-- Scan a whole buffer. -/
def scanAll {α : Type} (read : Bytes → Except DecodeError (α × ℕ)) (buf : Bytes) :
    List (α × ℕ) × Option DecodeError := scan read buf.length buf

/-- `validatePrefix`, with the length of the frame beside the fixed part. -/
def readPrefix (crc : Bytes → UInt32) (buf : Bytes) (maxRecordBytes : ℕ) :
    Except DecodeError (FrameStart × ℕ) := do
  let p ← validatePrefix crc buf maxRecordBytes
  return (p.toFrameStart, p.frameLen)

/-- How many bytes a reader asks for when it has `n` bytes of a frame. -/
def needed (f : Bytes) (n : ℕ) : ℕ := if n < frameHeaderBytes then frameHeaderBytes else f.length

section Scanning

variable {α : Type} {read : Bytes → Except DecodeError (α × ℕ)}

/-- The reader takes a frame whatever follows it, and reports one that is cut off. -/
structure ReadsFrame (read : Bytes → Except DecodeError (α × ℕ)) (f : Bytes) (a : α) : Prop where
  pos : 0 < f.length
  whole : ∀ rest, read (f ++ rest) = .ok (a, f.length)
  short : ∀ n < f.length, read (f.take n) = .error (.truncated (needed f n) n)

private theorem scan_nil (fuel : ℕ) : scan read fuel [] = ([], none) := by
  cases fuel <;> rfl

private theorem scan_append {fs : List (Bytes × α)} (h : ∀ x ∈ fs, ReadsFrame read x.1 x.2)
    (buf : Bytes) {fuel : ℕ} (hfuel : ((fs.map Prod.fst).flatten ++ buf).length ≤ fuel) :
    ∃ left, buf.length ≤ left ∧ scan read fuel ((fs.map Prod.fst).flatten ++ buf) =
      (fs.map (fun x ↦ (x.2, x.1.length)) ++ (scan read left buf).1, (scan read left buf).2) := by
  induction fs generalizing fuel with
  | nil => exact ⟨fuel, hfuel, rfl⟩
  | cons x fs ih =>
    rw [List.forall_mem_cons] at h
    have hpos := h.1.pos
    rw [List.map_cons, List.flatten_cons, List.append_assoc] at hfuel ⊢
    rw [List.length_append] at hfuel
    obtain ⟨fuel, rfl⟩ : ∃ n, fuel = n + 1 := ⟨fuel - 1, by omega⟩
    have hless : ((fs.map Prod.fst).flatten ++ buf).length ≤ fuel := by omega
    obtain ⟨left, hleft, hscan⟩ := ih h.2 hless
    refine ⟨left, hleft, ?_⟩
    have hne : (x.1 ++ ((fs.map Prod.fst).flatten ++ buf)).isEmpty = false := by
      rw [List.isEmpty_eq_false_iff, ← List.length_pos_iff, List.length_append]
      omega
    rw [scan, hne, if_neg Bool.false_ne_true, h.1.whole]
    dsimp only
    rw [List.drop_left, hscan, List.map_cons, List.cons_append]

private theorem scan_short {f : Bytes} {a : α} (h : ReadsFrame read f a) {part : Bytes}
    (hpart : part <+: f)
    (hlen : part.length < f.length) (hne : part ≠ []) {fuel : ℕ} (hfuel : part.length ≤ fuel) :
    scan read fuel part = ([], some (.truncated (needed f part.length) part.length)) := by
  have hpos := List.length_pos_of_ne_nil hne
  obtain ⟨fuel, rfl⟩ : ∃ n, fuel = n + 1 := ⟨fuel - 1, by omega⟩
  have hread := h.short part.length hlen
  rw [← List.prefix_iff_eq_take.1 hpart] at hread
  rw [scan, if_neg (by simpa using hne), hread]

end Scanning

/-! ## Cut-off streams -/

/-- The first `k` bytes of a stream: its first `j` frames, and a part of the next that is not all of
it. -/
structure CutAt (fs : List Bytes) (k j : ℕ) (part : Bytes) : Prop where
  take : fs.flatten.take k = (fs.take j).flatten ++ part
  next : ∀ f, fs[j]? = some f → part <+: f ∧ part.length < f.length
  last : fs.length ≤ j → part = []

private theorem exists_cutAt {fs : List Bytes} (h : ∀ f ∈ fs, 0 < f.length) (k : ℕ) :
    ∃ j part, CutAt fs k j part := by
  induction fs generalizing k with
  | nil => exact ⟨0, [], by simp, by simp, fun _ ↦ rfl⟩
  | cons f fs ih =>
    rw [List.forall_mem_cons] at h
    by_cases hk : k < f.length
    · refine ⟨0, f.take k, ?_, fun g hg ↦ ?_, by simp⟩
      · rw [List.flatten_cons, List.take_append_of_le_length hk.le]
        rfl
      · obtain rfl := Option.some.inj hg
        exact ⟨List.take_prefix k f, by rw [List.length_take]; omega⟩
    · obtain ⟨j, part, hcut⟩ := ih h.2 (k - f.length)
      refine ⟨j + 1, part, ?_, hcut.next, fun hj ↦ hcut.last (Nat.le_of_succ_le_succ hj)⟩
      rw [List.flatten_cons, List.take_append, List.take_of_length_le (by omega), hcut.take]
      simp

section Checksum

variable {crc : Bytes → UInt32} {cap : ℕ}

private theorem frameExtent_take {payload : Bytes} (hadm : Admissible cap payload) {n : ℕ}
    (hn : n < (frameBytes crc payload).length) :
    frameExtent ((frameBytes crc payload).take n) cap =
      .error (.truncated (needed (frameBytes crc payload) n) n) := by
  have hmin := hadm.min
  have hmax := hadm.max
  have hu32 := hadm.u32
  have hlen : ((frameBytes crc payload).take n).length = n := List.length_take_of_le hn.le
  rw [length_frameBytes] at hn
  unfold frameExtent needed
  rw [hlen, length_frameBytes]
  by_cases h8 : n < frameHeaderBytes
  · rw [if_pos h8, if_pos h8]
  · have hfield : leNat (((frameBytes crc payload).take n).take 4) = payload.length := by
      rw [List.take_take, Nat.min_eq_left (by unfold frameHeaderBytes at h8; omega), frameBytes,
        List.take_left' (length_leBytes 4 _), leNat_leBytes_of_lt (by unfold u32Max at hu32; omega)]
    rw [hfield, if_neg h8, if_neg h8, if_neg (by omega), if_neg (by omega), if_pos hn]

theorem framePayload_take {payload : Bytes} (hadm : Admissible cap payload) {n : ℕ}
    (hn : n < (frameBytes crc payload).length) :
    framePayload crc ((frameBytes crc payload).take n) cap =
      .error (.truncated (needed (frameBytes crc payload) n) n) := by
  rw [framePayload, frameExtent_take hadm hn]
  rfl

variable {series : String} {epoch : UInt32} {row : Row} {f : Bytes}

/-- An encoded frame is that of its stamped record, which is admitted. -/
theorem encode_nil_eq_ok (h : encode crc series epoch row [] = .ok () f)
    (hcap : f.length - frameHeaderBytes ≤ cap) :
    f = frameBytes crc (payloadBytes (stamped series epoch row)) ∧
      (stamped series epoch row).Fits ∧
      Admissible cap (payloadBytes (stamped series epoch row)) := by
  obtain ⟨⟨⟨hfits, -⟩, hlen⟩, hf⟩ := (encode_eq_ok crc series epoch row).1 h
  rw [List.nil_append, frameOf] at hf
  rw [hf, length_frameBytes, Nat.add_sub_cancel_left] at hcap
  exact ⟨hf, hfits, minPayloadBytes_le_length _, hcap, hlen⟩

theorem readsFrame_decode (h : encode crc series epoch row [] = .ok () f)
    (hcap : f.length - frameHeaderBytes ≤ cap) :
    ReadsFrame (decode crc · row.keys.length cap) f (stamped series epoch row) := by
  obtain ⟨rfl, hfits, hadm⟩ := encode_nil_eq_ok h hcap
  refine ⟨?_, fun rest ↦ ?_, fun n hn ↦ ?_⟩
  · rw [length_frameBytes]
    exact Nat.add_pos_left (by decide) _
  · exact decode_eq_ok.2 ⟨rest, rfl, hfits, rfl, hadm, length_frameBytes _ _⟩
  · rw [decode, framePayload_take hadm hn]
    rfl

private theorem readsFrame_readPrefix (h : encode crc series epoch row [] = .ok () f)
    (hcap : f.length - frameHeaderBytes ≤ cap) :
    ReadsFrame (readPrefix crc · cap) f (stamped series epoch row).start := by
  have hdecode := readsFrame_decode h hcap
  obtain ⟨rfl, hfits, hadm⟩ := encode_nil_eq_ok h hcap
  refine ⟨hdecode.pos, fun rest ↦ ?_, fun n hn ↦ ?_⟩
  · rw [readPrefix, validatePrefix_of_decode (hdecode.whole rest)]
    rfl
  · rw [readPrefix, validatePrefix, framePayload_take hadm hn]
    rfl

end Checksum

/-- What ends a scan of `part` of the frame `f`. -/
def cutError (f part : Bytes) : Option DecodeError :=
  if part = [] then none else some (.truncated (needed f part.length) part.length)

private theorem scanAll_cut {α : Type} {read : Bytes → Except DecodeError (α × ℕ)}
    {fs : List (Bytes × α)} (h : ∀ x ∈ fs, ReadsFrame read x.1 x.2) {k j : ℕ} {part : Bytes}
    (hcut : CutAt (fs.map Prod.fst) k j part) :
    scanAll read ((fs.map Prod.fst).flatten.take k) =
      ((fs.take j).map fun x ↦ (x.2, x.1.length),
        cutError (((fs.map Prod.fst)[j]?).getD []) part) := by
  have htake : (fs.map Prod.fst).take j = (fs.take j).map Prod.fst := List.map_take.symm
  rw [hcut.take, htake]
  obtain ⟨left, hleft, hscan⟩ := scan_append (fun x hx ↦ h x (List.mem_of_mem_take hx)) part le_rfl
  rw [scanAll, hscan]
  unfold cutError
  by_cases hpart : part = []
  · rw [hpart, scan_nil, if_pos rfl, List.append_nil]
  · rw [if_neg hpart]
    -- something is left, so the stream goes on
    have hj : j < (fs.map Prod.fst).length := not_le.1 fun hj ↦ hpart (hcut.last hj)
    have hget : (fs.map Prod.fst)[j]? = some (fs.map Prod.fst)[j] := List.getElem?_eq_getElem hj
    obtain ⟨hpre, hlt⟩ := hcut.next _ hget
    obtain ⟨x, hx, heq⟩ := List.mem_map.1 (List.getElem_mem hj)
    rw [hget, Option.getD_some, scan_short (heq ▸ h x hx) hpre hlt hpart hleft, List.append_nil]

/-- **Every cut of a frame stream.** Rows of one arity are encoded, and the concatenation of their
frames is cut after `k` bytes. A scan with `decode` or with `validatePrefix` returns the frames in
front of the cut, in order, and then comes to the clean end if nothing of the next frame is there;
otherwise it ends with `truncated`, with the number of bytes there, and from the eighth byte on with
the length of the whole frame. -/
theorem cut_stream_classified (crc : Bytes → UInt32) {keyCount cap : ℕ}
    {rows : List (String × UInt32 × Row)} {frames : List Bytes}
    (henc : List.Forall₂ (fun x f ↦ encode crc x.1 x.2.1 x.2.2 [] = .ok () f) rows frames)
    (harity : ∀ x ∈ rows, x.2.2.keys.length = keyCount)
    (hcap : ∀ f ∈ frames, f.length - frameHeaderBytes ≤ cap) (k : ℕ) :
    ∃ j part ending, CutAt frames k j part ∧
      scanAll (decode crc · keyCount cap) (frames.flatten.take k) =
        (((rows.zip frames).take j).map fun x ↦ (stamped x.1.1 x.1.2.1 x.1.2.2, x.2.length),
          ending) ∧
      scanAll (readPrefix crc · cap) (frames.flatten.take k) =
        (((rows.zip frames).take j).map fun x ↦
          ((stamped x.1.1 x.1.2.1 x.1.2.2).start, x.2.length), ending) ∧
      (part = [] → ending = none) ∧
      (part ≠ [] → ∃ f n, frames[j]? = some f ∧ ending = some (.truncated n part.length) ∧
        (frameHeaderBytes ≤ part.length → n = f.length)) := by
  have hzip : (rows.zip frames).map Prod.snd = frames := List.map_snd_zip henc.length_eq.ge
  have hmem : ∀ x ∈ rows.zip frames, encode crc x.1.1 x.1.2.1 x.1.2.2 [] = .ok () x.2 ∧
      x.2.length - frameHeaderBytes ≤ cap ∧ x.1.2.2.keys.length = keyCount := fun x hx ↦
    ⟨(List.forall₂_iff_zip.1 henc).2 hx, hcap _ (List.of_mem_zip hx).2,
      harity _ (List.of_mem_zip hx).1⟩
  have hdecode : ∀ x ∈ rows.zip frames,
      ReadsFrame (decode crc · keyCount cap) x.2 (stamped x.1.1 x.1.2.1 x.1.2.2) := by
    intro x hx
    obtain ⟨hx, hlen, rfl⟩ := hmem x hx
    exact readsFrame_decode hx hlen
  have hprefix : ∀ x ∈ rows.zip frames,
      ReadsFrame (readPrefix crc · cap) x.2 (stamped x.1.1 x.1.2.1 x.1.2.2).start := fun x hx ↦
    readsFrame_readPrefix (hmem x hx).1 (hmem x hx).2.1
  have hpos : ∀ f ∈ frames, 0 < f.length := by
    intro f hf
    obtain ⟨x, hx, rfl⟩ := List.mem_map.1 (hzip ▸ hf)
    exact (hdecode x hx).pos
  obtain ⟨j, part, hcut⟩ := exists_cutAt hpos k
  -- both readers see the same stream
  have hscan : ∀ {β : Type} {read : Bytes → Except DecodeError (β × ℕ)}
      (g : String × UInt32 × Row → β), (∀ x ∈ rows.zip frames, ReadsFrame read x.2 (g x.1)) →
      scanAll read (frames.flatten.take k) =
        (((rows.zip frames).take j).map fun x ↦ (g x.1, x.2.length),
          cutError (frames[j]?.getD []) part) := by
    intro β read g h
    have hfst : ((rows.zip frames).map fun x ↦ (x.2, g x.1)).map Prod.fst = frames := by
      rw [List.map_map]
      exact hzip
    have hall : ∀ y ∈ (rows.zip frames).map fun x ↦ (x.2, g x.1), ReadsFrame read y.1 y.2 := by
      intro y hy
      obtain ⟨x, hx, rfl⟩ := List.mem_map.1 hy
      exact h x hx
    have := scanAll_cut hall (hfst.symm ▸ hcut)
    rw [hfst, ← List.map_take, List.map_map] at this
    exact this
  refine ⟨j, part, cutError (frames[j]?.getD []) part, hcut,
    hscan (fun x ↦ stamped x.1 x.2.1 x.2.2) hdecode,
    hscan (fun x ↦ (stamped x.1 x.2.1 x.2.2).start) hprefix, fun hpart ↦ if_pos hpart,
    fun hpart ↦ ?_⟩
  obtain ⟨f, hf⟩ : ∃ f, frames[j]? = some f := by
    have hj : j < frames.length := not_le.1 fun hj ↦ hpart (hcut.last hj)
    exact ⟨frames[j], List.getElem?_eq_getElem hj⟩
  refine ⟨f, needed f part.length, hf, ?_, fun h8 ↦ if_neg (not_lt.2 h8)⟩
  rw [cutError, if_neg hpart, hf]
  rfl

private def cutRow : Row := ⟨7, "i", [], [], "d"⟩

/-- Two frames of one row, cut in the header of the second: the first is read, and the second is
reported with the three bytes there are. -/
theorem cut_stream_classified_second :
    let f := frameOf crc32 "t" 0 cutRow
    encode crc32 "t" 0 cutRow [] = .ok () f ∧
    ∃ j part ending, CutAt [f, f] (f.length + 3) j part ∧
      scanAll (decode crc32 · 0 100) ([f, f].flatten.take (f.length + 3)) =
        (((List.zip [("t", 0, cutRow), ("t", 0, cutRow)] [f, f]).take j).map fun x ↦
          (stamped x.1.1 x.1.2.1 x.1.2.2, x.2.length), ending) ∧
      (part = [] → ending = none) ∧
      (part ≠ [] → ∃ f' n, [f, f][j]? = some f' ∧ ending = some (.truncated n part.length) ∧
        (frameHeaderBytes ≤ part.length → n = f'.length)) := by
  intro f
  have henc : encode crc32 "t" 0 cutRow [] = .ok () f := by decide +kernel
  have hcap : ∀ g ∈ [f, f], g.length - frameHeaderBytes ≤ 100 := by decide +kernel
  have hrows : List.Forall₂ (fun x g ↦ encode crc32 x.1 x.2.1 x.2.2 [] = .ok () g)
      [("t", 0, cutRow), ("t", 0, cutRow)] [f, f] := .cons henc (.cons henc .nil)
  have harity : ∀ x ∈ [("t", (0 : UInt32), cutRow), ("t", 0, cutRow)], x.2.2.keys.length = 0 := by
    simp [cutRow]
  obtain ⟨j, part, ending, hcut, hdecode, -, hclean, hshort⟩ :=
    cut_stream_classified crc32 hrows harity hcap (f.length + 3)
  exact ⟨henc, j, part, ending, hcut, hdecode, hclean, hshort⟩

/-! ## A changed byte -/

section Mismatch

variable {crc : Bytes → UInt32} {cap : ℕ}

theorem framePayload_mismatch {payload sum rest : Bytes} (hadm : Admissible cap payload)
    (hsum : sum.length = 4)
    (hne : (crc (leBytes 4 payload.length ++ payload)).toNat ≠ leNat sum) :
    framePayload crc (leBytes 4 payload.length ++ (sum ++ (payload ++ rest))) cap =
      .error (.corrupt "crc32 mismatch") := by
  have hextent := frameExtent_eq_ok.2 ⟨sum, rest, hsum, rfl, hadm, rfl⟩
  rw [framePayload, hextent]
  change (if _ then _ else _) = _
  rw [if_pos]
  · rfl
  · rwa [List.take_left' (length_leBytes 4 _), List.drop_left' (length_leBytes 4 _),
      List.take_left' hsum]

private theorem framePayload_sum {payload sum : Bytes} (hadm : Admissible cap payload)
    (hsum : sum.length = 4)
    (hne : sum ≠ leBytes 4 (crc (leBytes 4 payload.length ++ payload)).toNat) (rest : Bytes) :
    framePayload crc (leBytes 4 payload.length ++ (sum ++ (payload ++ rest))) cap =
      .error (.corrupt "crc32 mismatch") := by
  refine framePayload_mismatch hadm hsum fun heq ↦ hne ?_
  rw [heq, leBytes_leNat_of_length hsum]

private theorem framePayload_payload {payload payload' : Bytes} (hadm : Admissible cap payload)
    (hlen : payload'.length = payload.length)
    (hne : crc (leBytes 4 payload.length ++ payload') ≠ crc (leBytes 4 payload.length ++ payload))
    (rest : Bytes) :
    framePayload crc (leBytes 4 payload.length ++
        (leBytes 4 (crc (leBytes 4 payload.length ++ payload)).toNat ++ (payload' ++ rest))) cap =
      .error (.corrupt "crc32 mismatch") := by
  have hadm' : Admissible cap payload' :=
    ⟨hlen.symm ▸ hadm.min, hlen.symm ▸ hadm.max, hlen.symm ▸ hadm.u32⟩
  have hu32 : (crc (leBytes 4 payload.length ++ payload)).toNat < 256 ^ 4 :=
    (crc (leBytes 4 payload.length ++ payload)).toNat_lt
  rw [← hlen] at hne hu32 ⊢
  refine framePayload_mismatch hadm' (length_leBytes 4 _) fun heq ↦ hne ?_
  rw [leNat_leBytes_of_lt hu32] at heq
  exact UInt32.toNat_inj.1 heq

end Mismatch

private theorem crc32_set_ne (before : Bytes) {payload : Bytes} {i : ℕ} (hi : i < payload.length)
    {b : UInt8}
    (hb : payload[i]? ≠ some b) : crc32 (before ++ payload.set i b) ≠ crc32
      (before ++ payload) := by
  rw [List.getElem?_eq_getElem hi, Ne, Option.some.injEq] at hb
  have hne := crc32_ne (before ++ payload.take i) (payload.drop (i + 1)) (Ne.symm hb)
  rw [List.append_assoc, List.append_assoc, ← List.set_eq_take_cons_drop _ hi,
    List.getElem_cons_drop, List.take_append_drop] at hne
  exact hne

private theorem framePayload_set {payload : Bytes} {cap : ℕ} (hadm : Admissible cap payload) {i : ℕ}
    (hi : 4 ≤ i) (hlt : i < (frameBytes crc32 payload).length) {b : UInt8}
    (hb : (frameBytes crc32 payload)[i]? ≠ some b) (rest : Bytes) :
    framePayload crc32 ((frameBytes crc32 payload).set i b ++ rest) cap =
      .error (.corrupt "crc32 mismatch") := by
  have hlen : (leBytes 4 payload.length).length = 4 := length_leBytes 4 _
  set sum := leBytes 4 (crc32 (leBytes 4 payload.length ++ payload)).toNat with hsum
  have hsum4 : sum.length = 4 := length_leBytes 4 _
  have hframe : frameBytes crc32 payload = leBytes 4 payload.length ++ (sum ++ payload) := rfl
  rw [hframe] at hlt hb ⊢
  rw [List.length_append, List.length_append, hlen, hsum4] at hlt
  rw [List.getElem?_append_right (by omega), hlen] at hb
  rw [List.set_append_right _ _ (by omega), hlen]
  by_cases hsmall : i - 4 < 4
  · -- the stored checksum is changed, and the bytes it covers are not
    rw [List.getElem?_append_left (by omega)] at hb
    rw [List.set_append_left _ _ (by omega), List.append_assoc, List.append_assoc]
    refine framePayload_sum hadm (by rw [List.length_set, hsum4]) (fun heq ↦ hb ?_) rest
    rw [hsum, ← heq, List.getElem?_set_self (by omega)]
  · -- the payload is changed, and the stored checksum is not
    rw [List.getElem?_append_right (by omega), hsum4] at hb
    rw [List.set_append_right _ _ (by omega), hsum4, List.append_assoc, List.append_assoc]
    exact framePayload_payload hadm List.length_set (crc32_set_ne _ (by omega) hb) rest

/-- **One byte changed.** A byte of an encoded frame behind its length field is replaced by another.
Whatever follows, and for every bound that admits the frame and every number of keys,
`validatePrefix` and `decode` find the frame corrupt. -/
theorem byte_damage_corrupt {series : String} {epoch : UInt32} {row : Row} {f : Bytes}
    (henc : encode crc32 series epoch row [] = .ok () f) {cap : ℕ}
    (hcap : f.length - frameHeaderBytes ≤ cap) {i : ℕ} (hi : 4 ≤ i) (hlt : i < f.length) {b : UInt8}
    (hb : f[i]? ≠ some b) (rest : Bytes) (keyCount : ℕ) :
    validatePrefix crc32 (f.set i b ++ rest) cap = .error (.corrupt "crc32 mismatch") ∧
      decode crc32 (f.set i b ++ rest) keyCount cap = .error (.corrupt "crc32 mismatch") := by
  obtain ⟨rfl, -, hadm⟩ := encode_nil_eq_ok henc hcap
  have hpayload := framePayload_set hadm hi hlt hb rest
  refine ⟨?_, ?_⟩
  · rw [validatePrefix, hpayload]
    rfl
  · rw [decode, hpayload]
    rfl

/-- The last byte of a frame changed. -/
theorem byte_damage_corrupt_last :
    let f := frameOf crc32 "t" 0 cutRow
    f.length = 33 ∧
      decode crc32 (f.set 32 0 ++ [1]) 0 100 = .error (.corrupt "crc32 mismatch") := by
  intro f
  have henc : encode crc32 "t" 0 cutRow [] = .ok () f := by decide +kernel
  have hlen : f.length = 33 := by decide +kernel
  have hcap : f.length - frameHeaderBytes ≤ 100 := by rw [hlen]; decide
  have hlt : 32 < f.length := by rw [hlen]; decide
  have hb : f[32]? ≠ some 0 := by decide +kernel
  exact ⟨hlen, (byte_damage_corrupt henc hcap (by decide) hlt hb [1] 0).2⟩

end Orc
